import Citrusleaf.BatchCollect
import Citrusleaf.Lib.Tickets

/-! A batch keeps every record whose bins it copied: slots are handed out like tickets, and
each record is somewhere on its way from the queue to its slot. -/
namespace Citrusleaf
open Lib

/-! ### Copies of bins -/

/-- A bin with the same name and the same value. -/
structure SameBin (new old : ClBin) : Prop where
  name : new.binName.str = old.binName.str
  type : new.object.type = old.object.type
  sz : new.object.sz = old.object.sz
  int : old.object.type = clInt → new.object.u.toI64 = old.object.u.toI64
  bytes : old.object.type = clStr ∨ isBlob old.object.type ∨ old.object.type = clDigest →
    ∃ bytes, old.object.u.copy old.object.sz = some bytes ∧ new.object.u.copy new.object.sz = some bytes

theorem BinName.str_length (name : BinName) : name.str.length ≤ 32 :=
  (List.takeWhile_prefix _).length_le.trans_eq name.size

theorem BinName.str_fill (old name : BinName) : (old.fill name.str).str = name.str := by
  rw [BinName.fill]
  split
  · rename_i full
    refine List.takeWhile_eq_self_iff.mpr fun c member => ?_
    rw [bne_iff_ne]
    exact fun zero => name.str_plain (zero ▸ member)
  · rename_i part
    have short : name.str.length < 32 := Nat.lt_of_le_of_ne name.str_length part
    obtain ⟨new,set⟩ := Option.isSome_iff_exists.mp ((BinName.set_isSome old name.str).mpr short)
    rw [set,Option.getD_some]
    exact BinName.str_set name.str_plain set

/-- A block that was copied reads back, whatever is behind it. -/
theorem copy_copied {u : ClUnion} (read : u.copy sz = some bytes) (address : UInt64) (behind : List UInt8) :
    (ClUnion.ptr address (bytes ++ behind)).copy sz = some bytes :=
  readBytes_at [] bytes behind rfl (ClUnion.copy_length read).symm

/-- Contents that were copied, with what else is behind them. -/
theorem SameBin.contents {bytes : List UInt8} (srcobj : ClObject) (other : srcobj.type ≠ clInt)
    (read : srcobj.u.copy srcobj.sz = some bytes) (address : UInt64) (behind : List UInt8) (name old : BinName) :
    SameBin ⟨old.fill name.str,{srcobj with u := .ptr address (bytes ++ behind)}⟩ ⟨name,srcobj⟩ :=
  ⟨BinName.str_fill old name,rfl,rfl,fun int => absurd int other,fun _ => ⟨bytes,read,copy_copied read _ _⟩⟩

theorem copyObject_same {malloc : Nat → Option UInt64} {srcobj object : ClObject}
    (done : citrusleafCopyObject malloc srcobj = some (some object)) (name : BinName) (old : BinName) :
    SameBin ⟨old.fill name.str,object⟩ ⟨name,srcobj⟩ := by
  obtain ⟨type,sz,u⟩ := srcobj
  rw [citrusleafCopyObject] at done
  dsimp only at done
  split at done
  · rename_i null
    obtain rfl := Option.some.inj (Option.some.inj done)
    subst null
    exact ⟨BinName.str_fill old name,rfl,rfl,fun int => absurd int (show ¬clNull = clInt by decide),
      fun bytes => absurd bytes (show ¬(clNull = clStr ∨ isBlob clNull ∨ clNull = clDigest) by decide)⟩
  split at done
  · rename_i _ int
    obtain rfl := Option.some.inj (Option.some.inj done)
    subst int
    exact ⟨BinName.str_fill old name,rfl,rfl,fun _ => rfl,
      fun bytes => absurd bytes (show ¬(clInt = clStr ∨ isBlob clInt ∨ clInt = clDigest) by decide)⟩
  rename_i int
  split at done
  · cases given : malloc (sz + 1) with
    | none =>
      rw [given] at done
      cases done
    | some address =>
      rw [given] at done
      obtain ⟨bytes,read,done⟩ := Option.map_eq_some_iff.mp done
      obtain rfl := Option.some.inj done
      exact .contents ⟨type,sz,u⟩ int read address [0] name old
  split at done
  · cases given : malloc sz with
    | none =>
      rw [given] at done
      cases done
    | some address =>
      rw [given] at done
      obtain ⟨bytes,read,done⟩ := Option.map_eq_some_iff.mp done
      obtain rfl := Option.some.inj done
      have same := SameBin.contents ⟨type,sz,u⟩ int read address [] name old
      rwa [List.append_nil] at same
  · cases done

theorem copyBinsFrom_same {malloc : Nat → Nat → Option UInt64} {srcbins newbins : List ClBin}
    (done : copyBinsFrom malloc call srcbins = some (some newbins)) : List.Forall₂ SameBin newbins srcbins := by
  induction srcbins generalizing call newbins with
  | nil =>
    obtain rfl := Option.some.inj (Option.some.inj done)
    exact .nil
  | cons srcbin srcbins ih =>
    obtain ⟨copied,one,done⟩ := Option.bind_eq_some_iff.mp done
    cases copied with
    | none => cases done
    | some newbin =>
      obtain ⟨rest,more,done⟩ := Option.bind_eq_some_iff.mp done
      obtain ⟨later,rfl,rfl⟩ := Option.map_eq_some_iff.mp (Option.some.inj done)
      obtain ⟨object,made,same⟩ := Option.map_eq_some_iff.mp one
      obtain ⟨object,rfl,rfl⟩ := Option.map_eq_some_iff.mp same
      exact .cons (copyObject_same made _ _) (ih more)

/-- Bins that were copied are bins with the same names and values, in the same order. -/
theorem citrusleafCopyBins_same {malloc : Nat → Nat → Option UInt64} {srcbins newbins : List ClBin}
    (done : citrusleafCopyBins malloc srcbins = some (some newbins)) : List.Forall₂ SameBin newbins srcbins := by
  rw [citrusleafCopyBins] at done
  split at done
  · cases done
  · exact copyBinsFrom_same done

/-! ### The way of a record -/

/-- What a slot is to hold. -/
def recOf (p : CallbackRecord × List ClBin) : ClRec :=
  ⟨p.1.keyd.getD [],p.1.generation,p.1.recordTtl,p.2,p.1.bins.length⟩

/-- The writes of a callback make the record of any slot. -/
theorem recordWrites_make (given : r.keyd = some keyd) (targetBins : List ClBin) (rec : ClRec) :
    (recordWrites keyd r targetBins).foldl (fun rec write => write rec) rec = recOf (r,targetBins) := by
  rw [recOf,given]
  rfl

namespace BatchgetPlace

/-- The slot that is being filled, and what is left to write to it. -/
def flight : BatchgetPlace → Option (Nat × (ClRec → ClRec))
  | filling slot writes => some (slot,fun rec => writes.foldl (fun rec write => write rec) rec)
  | _ => none

/-- A record without a slot. -/
def record : BatchgetPlace → Option CallbackRecord
  | called r => some r
  | copied r _ => some r
  | filling _ _ => none

/-- Bins that are ready for a slot are copies. -/
def Ready : BatchgetPlace → Prop
  | copied r targetBins => ∃ malloc, citrusleafCopyBins malloc r.bins = some (some targetBins)
  | _ => True

end BatchgetPlace

/-- Slots are handed out like tickets, and each record is at one place. -/
structure Collects (works : List (List CallbackRecord)) (start : List ClRec) (br : ClBatchresult)
    (places : List BatchgetPlace) (rest : List CallbackRecord) : Prop where
  tickets : Tickets start br.records (br.copied.map recOf) (places.filterMap BatchgetPlace.flight)
  counted : br.numrecs = br.copied.length
  kept : (br.copied.map Prod.fst ++ br.failed ++ places.filterMap BatchgetPlace.record ++ rest).Perm works.flatten
  ready : ∀ place ∈ places, place.Ready
  copies : ∀ p ∈ br.copied, p.1.keyd.isSome ∧ ∃ malloc, citrusleafCopyBins malloc p.1.bins = some (some p.2)
  fails : ∀ r ∈ br.failed, ∃ malloc, citrusleafCopyBins malloc r.bins = some none

variable {works : List (List CallbackRecord)} {start : List ClRec} {br : ClBatchresult} {places : List BatchgetPlace}
  {rest : List CallbackRecord}

theorem Collects.perm (collects : Collects works start br places rest) (moved : places.Perm places')
    (later : rest.Perm rest') : Collects works start br places' rest' where
  tickets := collects.tickets.perm (moved.filterMap _)
  counted := collects.counted
  kept := (((moved.filterMap _).append_left _).append later).symm.trans collects.kept
  ready place member := collects.ready place (moved.mem_iff.mpr member)
  copies := collects.copies
  fails := collects.fails

theorem Collects.enter (collects : Collects works start br places (r :: rest)) :
    Collects works start br (.called r :: places) rest where
  tickets := collects.tickets
  counted := collects.counted
  kept := by
    have middle : (r :: places.filterMap BatchgetPlace.record ++ rest).Perm
        (places.filterMap BatchgetPlace.record ++ r :: rest) := List.perm_middle.symm
    have whole := middle.append_left (br.copied.map Prod.fst ++ br.failed)
    rw [← List.append_assoc,← List.append_assoc] at whole
    exact whole.trans collects.kept
  ready place member := by
    rcases List.mem_cons.mp member with rfl | other
    · trivial
    · exact collects.ready place other
  copies := collects.copies
  fails := collects.fails

/-- The records with a slot are fewer than the slots while one is still on its way. -/
theorem Collects.room (collects : Collects works start br (place :: places) rest) (record : place.record = some r)
    (enough : works.flatten.length ≤ start.length) : br.copied.length < start.length := by
  have size := collects.kept.length_eq
  simp only [List.length_append,List.length_map,List.filterMap_cons,record,List.length_cons] at size
  omega

theorem Collects.fail (collects : Collects works start br (.called r :: places) rest)
    (copy : citrusleafCopyBins malloc r.bins = some none) :
    Collects works start {br with failed := br.failed ++ [r]} places rest where
  tickets := collects.tickets
  counted := collects.counted
  kept := by
    have kept := collects.kept
    simpa [BatchgetPlace.record] using kept
  ready place member := collects.ready place (List.mem_cons_of_mem _ member)
  copies := collects.copies
  fails other member := by
    rcases List.mem_append.mp member with old | new
    · exact collects.fails other old
    · obtain rfl := List.mem_singleton.mp new
      exact ⟨_,copy⟩

theorem Collects.copy (collects : Collects works start br (.called r :: places) rest)
    (copy : citrusleafCopyBins malloc r.bins = some (some targetBins)) :
    Collects works start br (.copied r targetBins :: places) rest where
  tickets := collects.tickets
  counted := collects.counted
  kept := collects.kept
  ready place member := by
    rcases List.mem_cons.mp member with rfl | other
    · exact ⟨_,copy⟩
    · exact collects.ready place (List.mem_cons_of_mem _ other)
  copies := collects.copies
  fails := collects.fails

/-- A record whose bins are copied takes the next slot. -/
theorem Collects.take (collects : Collects works start br (.copied r targetBins :: places) rest)
    (enough : works.flatten.length ≤ start.length) (given : r.keyd = some keyd) :
    Collects works start {br with numrecs := br.numrecs + 1,copied := br.copied ++ [(r,targetBins)]}
      (.filling br.numrecs (recordWrites keyd r targetBins) :: places) rest where
  tickets := by
    have room : br.copied.length < start.length := collects.room rfl enough
    have taken := collects.tickets.take (by rwa [List.length_map]) (recOf (r,targetBins))
      (fun rec => (recordWrites keyd r targetBins).foldl (fun rec write => write rec) rec)
      fun rec _ => recordWrites_make given targetBins rec
    rw [List.length_map,← collects.counted] at taken
    rw [List.map_append]
    exact taken
  counted := by
    rw [List.length_append,← collects.counted]
    rfl
  kept := by
    have middle : (br.failed ++ r :: (places.filterMap BatchgetPlace.record ++ rest)).Perm
        (r :: (br.failed ++ (places.filterMap BatchgetPlace.record ++ rest))) := List.perm_middle
    have kept := collects.kept
    simp only [List.filterMap_cons,BatchgetPlace.record,List.map_append,List.map_cons,List.map_nil,List.append_assoc,
      List.cons_append,List.nil_append] at kept ⊢
    exact (middle.symm.append_left _).trans kept
  ready place member := by
    rcases List.mem_cons.mp member with rfl | other
    · trivial
    · exact collects.ready place (List.mem_cons_of_mem _ other)
  copies p member := by
    rcases List.mem_append.mp member with old | new
    · exact collects.copies p old
    · obtain rfl := List.mem_singleton.mp new
      exact ⟨by rw [given]; rfl,collects.ready _ List.mem_cons_self⟩
  fails := collects.fails

theorem Collects.write {write : ClRec → ClRec}
    (collects : Collects works start br (.filling slot (write :: writes) :: places) rest) :
    Collects works start {br with records := br.records.modify slot write} (.filling slot writes :: places) rest where
  tickets := collects.tickets.write write _ fun _ _ => rfl
  counted := collects.counted
  kept := collects.kept
  ready place member := by
    rcases List.mem_cons.mp member with rfl | other
    · trivial
    · exact collects.ready place (List.mem_cons_of_mem _ other)
  copies := collects.copies
  fails := collects.fails

theorem Collects.done (collects : Collects works start br (.filling slot [] :: places) rest) :
    Collects works start br places rest where
  tickets := collects.tickets.done fun _ _ => rfl
  counted := collects.counted
  kept := collects.kept
  ready place member := collects.ready place (List.mem_cons_of_mem _ member)
  copies := collects.copies
  fails := collects.fails

theorem collects_keeps (enough : works.flatten.length ≤ start.length) :
    directBatchgetCb.Keeps (fun _ => True) (Collects works start) where
  perm := Collects.perm
  enter := Collects.enter
  step {br place places rest malloc _ _} collects _ taken := by
    cases place with
    | called r =>
      simp only [directBatchgetCb] at taken
      split at taken
      · cases taken
      · rename_i copy
        obtain ⟨rfl,rfl⟩ := Prod.mk.inj (Option.some.inj taken)
        exact collects.fail copy
      · rename_i targetBins copy
        obtain ⟨rfl,rfl⟩ := Prod.mk.inj (Option.some.inj taken)
        exact collects.copy copy
    | copied r targetBins =>
      obtain ⟨keyd,given,taken⟩ := Option.map_eq_some_iff.mp taken
      obtain ⟨rfl,rfl⟩ := Prod.mk.inj taken
      exact collects.take enough given
    | filling slot writes =>
      cases writes with
      | nil =>
        obtain ⟨rfl,rfl⟩ := Prod.mk.inj (Option.some.inj taken)
        exact collects.done
      | cons write writes =>
        obtain ⟨rfl,rfl⟩ := Prod.mk.inj (Option.some.inj taken)
        exact collects.write

theorem collects_start (works : List (List CallbackRecord)) (start : List ClRec) :
    Collects works start ⟨0,start,[],[]⟩ [] works.flatten :=
  ⟨Tickets.none start,rfl,List.Perm.refl _,nofun,nofun,nofun⟩

/-- The slots that are being filled. -/
def BatchCollect.slots (s : BatchCollect) : List Nat := (s.places.filterMap BatchgetPlace.flight).map Prod.fst

/-- A slot with a record that the callback was given, and copies of its bins. -/
structure Stored (rec : ClRec) (r : CallbackRecord) (targetBins : List ClBin) : Prop where
  digest : r.keyd = some rec.digest
  generation : rec.generation = r.generation
  recordVoidtime : rec.recordVoidtime = r.recordTtl
  bins : rec.bins = targetBins
  nBins : rec.nBins = r.bins.length
  same : List.Forall₂ SameBin rec.bins r.bins

end Citrusleaf
