import Citrusleaf.IndexQuery
import Citrusleaf.Lib.Tickets
import Mathlib.Algebra.BigOperators.Group.List.Basic

/-! Index lookups lose no record and repeat none: entries are handed out like tickets, and the
array of digests is those of all records, one after the other. -/
namespace Citrusleaf
open Lib

/-- The count of a record, where it can be read. -/
def countOf (record : List UInt8) : Nat := (recordCount record).getD 0

/-- The digests of a record. -/
def digestsOf (record : List UInt8) : List (List UInt8) := cellsOf 20 (record.drop 8)

/-- A record whose count matches its size. -/
structure Matching (record : List UInt8) : Prop where
  size : record.length = 8 + 20 * countOf record
  small : countOf record < 2 ^ 31

theorem Matching.count (matching : Matching record) : recordCount record = some (countOf record) := by
  have inside : 0 + 8 ≤ record.length := by
    have size := matching.size
    omega
  have read : recordCount record = some (leNat ((record.drop 0).take 8)) := by
    rw [recordCount,readBytes,if_pos inside]
    rfl
  rw [countOf,read]
  rfl

theorem Matching.whole (matching : Matching record) : readBytes record 0 (recordSize (countOf record)) = some record := by
  have size := matching.size
  have small := matching.small
  have fits : recordSize (countOf record) = record.length := by
    rw [recordSize,Nat.mod_eq_of_lt (by omega)]
    omega
  have read := readBytes_at [] record [] rfl fits
  rwa [List.nil_append,List.append_nil] at read

/-- The pointer to a record that a callback finds in its bins. -/
def indexBlob (r : CallbackRecord) : Option (List UInt8) :=
  match r.bins with
  | [bin] =>
    match bin.object.u with
    | .ptr _ record => some record
    | .i64 _ => none
  | _ => none

/-- A record with one bin, whose object is the blob of a matching record. -/
structure WellFormedIndex (r : CallbackRecord) : Prop where
  blob : ∃ bin address record, r.bins = [bin] ∧ bin.object.type = clBlob ∧ bin.object.u = .ptr address record ∧
    address ≠ 0 ∧ record.length = 8 + 20 * countOf record

/-- The blob of a record, unless its count is zero. -/
def nonemptyBlob (r : CallbackRecord) : Option (List UInt8) := (indexBlob r).filter fun record => countOf record ≠ 0

/-! ### Places -/

namespace IndexPlace

/-- What the rest of a call does to its entry of `irs`. -/
def flight : IndexPlace → Option (Nat × (Option (List UInt8) → Option (List UInt8)))
  | testing index record => some (index,fun entry => entry.or (some record))
  | storing index record => some (index,fun _ => some record)
  | copying index record => some (index,fun entry => entry.bind fun block => writeBytes block 0 record)
  | _ => none

/-- A record without an entry. -/
def record : IndexPlace → Option (List UInt8)
  | called r => nonemptyBlob r
  | adding record => some record
  | _ => none

/-- The record of a call is a matching one. -/
def Good : IndexPlace → Prop
  | called r => WellFormedIndex r ∧ ∀ record, indexBlob r = some record → Matching record
  | adding record | testing _ record | storing _ record | copying _ record => Matching record

end IndexPlace

/-- Entries are handed out like tickets, and each record that is not empty is at one place. -/
structure Gathers (works : List (List CallbackRecord)) (hours : Nat) (c : IndexLookups) (places : List IndexPlace)
    (rest : List CallbackRecord) : Prop where
  tickets : Tickets (List.replicate hours none) c.irs (c.taken.map some) (places.filterMap IndexPlace.flight)
  counted : c.irsCurr = c.taken.length
  kept : (c.taken ++ places.filterMap IndexPlace.record ++ rest.filterMap nonemptyBlob).Perm
    (works.flatten.filterMap nonemptyBlob)
  good : ∀ place ∈ places, place.Good
  later : ∀ r ∈ rest, (IndexPlace.called r).Good

variable {works : List (List CallbackRecord)} {hours : Nat} {c : IndexLookups} {place : IndexPlace} {places : List IndexPlace}
  {rest : List CallbackRecord} {r : CallbackRecord} {record block : List UInt8}

theorem Gathers.perm (gathers : Gathers works hours c places rest) (moved : places.Perm places') (others : rest.Perm rest') :
    Gathers works hours c places' rest' where
  tickets := gathers.tickets.perm (moved.filterMap _)
  counted := gathers.counted
  kept := (((moved.filterMap _).append_left _).append (others.filterMap _)).symm.trans gathers.kept
  good place member := gathers.good place (moved.mem_iff.mpr member)
  later r member := gathers.later r (others.mem_iff.mpr member)

/-- One call moves to another place. It may write to its entry. -/
theorem Gathers.goOn (gathers : Gathers works hours c (place :: places) rest) {next : IndexPlace}
    {irs : List (Option (List UInt8))} (record : next.record = place.record) (good : next.Good)
    (tickets : Tickets (List.replicate hours none) irs (c.taken.map some)
      (next.flight.toList ++ places.filterMap IndexPlace.flight)) :
    Gathers works hours {c with irs} (next :: places) rest where
  tickets := by
    rw [List.filterMap_cons]
    cases flight : next.flight <;> simpa [flight] using tickets
  counted := gathers.counted
  kept := by
    have kept := gathers.kept
    rw [List.filterMap_cons] at kept ⊢
    rwa [record]
  good other member := by
    rcases List.mem_cons.mp member with rfl | old
    · exact good
    · exact gathers.good other (List.mem_cons_of_mem _ old)
  later := gathers.later

theorem Gathers.enter (gathers : Gathers works hours c places (r :: rest)) :
    Gathers works hours c (.called r :: places) rest where
  tickets := gathers.tickets
  counted := gathers.counted
  kept := by
    have kept := gathers.kept
    rw [List.filterMap_cons] at kept ⊢
    cases blob : nonemptyBlob r with
    | none =>
      rw [blob] at kept
      simpa only [IndexPlace.record,blob] using kept
    | some record =>
      rw [blob] at kept
      simp only [IndexPlace.record,blob]
      have middle : (record :: places.filterMap IndexPlace.record ++ rest.filterMap nonemptyBlob).Perm
          (places.filterMap IndexPlace.record ++ record :: rest.filterMap nonemptyBlob) := List.perm_middle.symm
      have whole := middle.append_left c.taken
      rw [← List.append_assoc,← List.append_assoc] at whole
      exact whole.trans kept
  good place member := by
    rcases List.mem_cons.mp member with rfl | other
    · exact gathers.later r List.mem_cons_self
    · exact gathers.good place other
  later other member := gathers.later other (List.mem_cons_of_mem _ member)

/-- A call returns. It may write to its entry before. -/
theorem Gathers.leave (gathers : Gathers works hours c (place :: places) rest) {irs : List (Option (List UInt8))}
    (record : place.record = none)
    (tickets : Tickets (List.replicate hours none) irs (c.taken.map some) (places.filterMap IndexPlace.flight)) :
    Gathers works hours {c with irs} places rest where
  tickets := tickets
  counted := gathers.counted
  kept := by
    have kept := gathers.kept
    rwa [List.filterMap_cons,record] at kept
  good other member := gathers.good other (List.mem_cons_of_mem _ member)
  later := gathers.later

theorem Gathers.room (gathers : Gathers works hours c (.adding record :: places) rest)
    (enough : works.flatten.length ≤ hours) : c.taken.length < hours := by
  have size := gathers.kept.length_eq
  have most : (works.flatten.filterMap nonemptyBlob).length ≤ works.flatten.length := List.length_filterMap_le ..
  simp only [List.length_append,List.filterMap_cons,IndexPlace.record,List.length_cons] at size
  omega

/-- The addition gives a record the next entry. -/
theorem Gathers.take (gathers : Gathers works hours c (.adding record :: places) rest)
    (enough : works.flatten.length ≤ hours) :
    Gathers works hours {c with irsCurr := c.irsCurr + 1,taken := c.taken ++ [record]}
      (.testing c.irsCurr record :: places) rest where
  tickets := by
    have taken := gathers.tickets.take (by rw [List.length_map,List.length_replicate]; exact gathers.room enough)
      (some record) (fun entry => entry.or (some record)) fun entry null => by
        obtain rfl := List.eq_of_mem_replicate (List.mem_of_getElem? null)
        rfl
    rw [List.length_map,← gathers.counted] at taken
    rw [List.map_append]
    exact taken
  counted := by
    rw [List.length_append,← gathers.counted]
    rfl
  kept := by
    have kept := gathers.kept
    rw [List.filterMap_cons] at kept ⊢
    simpa [IndexPlace.record] using kept
  good place member := by
    rcases List.mem_cons.mp member with rfl | other
    · exact gathers.good (.adding record) List.mem_cons_self
    · exact gathers.good place (List.mem_cons_of_mem _ other)
  later := gathers.later

/-! ### Steps of a call -/

theorem nonemptyBlob_of (blob : indexBlob r = some record) :
    nonemptyBlob r = if countOf record = 0 then none else some record := by
  rw [nonemptyBlob,blob]
  by_cases zero : countOf record = 0 <;> simp [zero]

theorem Gathers.called (gathers : Gathers works hours c (.called r :: places) rest)
    (taken : indexGetmanyCb.step malloc c (.called r) = some (after,next)) :
    Gathers works hours after (next.toList ++ places) rest := by
  obtain ⟨⟨bin,address,record,bins,type,u,pointer,_⟩,matching⟩ := gathers.good _ List.mem_cons_self
  have blob : indexBlob r = some record := by rw [indexBlob,bins]; simp only [u]
  have name := nonemptyBlob_of blob
  have whole := matching record blob
  simp only [indexGetmanyCb,bins,type,u,pointer,ne_eq,not_true,if_false,whole.count,Option.map_some,Option.some.injEq] at taken
  split at taken
  · rename_i zero
    obtain ⟨rfl,rfl⟩ := Prod.mk.inj taken
    rw [if_pos zero] at name
    exact gathers.leave name gathers.tickets
  · rename_i positive
    obtain ⟨rfl,rfl⟩ := Prod.mk.inj taken
    rw [if_neg positive] at name
    exact gathers.goOn name.symm whole gathers.tickets

theorem Gathers.testing (gathers : Gathers works hours c (.testing index record :: places) rest)
    (taken : indexGetmanyCb.step malloc c (.testing index record) = some (after,next)) :
    Gathers works hours after (next.toList ++ places) rest := by
  have whole : Matching record := gathers.good (.testing index record) List.mem_cons_self
  have tickets := gathers.tickets
  simp only [indexGetmanyCb] at taken
  split at taken
  · rename_i null
    obtain ⟨rfl,rfl⟩ := Prod.mk.inj (Option.some.inj taken)
    refine gathers.goOn rfl whole ?_
    have same := tickets.write id (fun _ => some record) fun entry content => by
      obtain rfl := Option.some.inj (null.symm.trans content)
      rfl
    rwa [List.modify_id] at same
  · rename_i other
    obtain ⟨rfl,rfl⟩ := Prod.mk.inj (Option.some.inj taken)
    refine gathers.leave rfl (tickets.done fun entry content => ?_)
    cases entry with
    | none => exact absurd content other
    | some block => rfl

theorem Gathers.storing (gathers : Gathers works hours c (.storing index record :: places) rest)
    (gives : ∀ n, (malloc n).isSome) (taken : indexGetmanyCb.step malloc c (.storing index record) = some (after,next)) :
    Gathers works hours after (next.toList ++ places) rest := by
  have whole : Matching record := gathers.good (.storing index record) List.mem_cons_self
  obtain ⟨block,given,length⟩ := mallocBlock_gives gives (recordSize (countOf record))
  simp only [indexGetmanyCb,whole.count,Option.map_some,given,Option.some.injEq] at taken
  obtain ⟨rfl,rfl⟩ := Prod.mk.inj taken
  refine gathers.goOn rfl whole ?_
  rw [List.set_eq_modify]
  refine gathers.tickets.write (fun _ => some block) _ fun entry _ => ?_
  have size : record.length = block.length := by
    have fits := congrArg (Option.map List.length) whole.whole
    rw [length,recordSize,Nat.mod_eq_of_lt]
    · have size := whole.size
      omega
    · have small := whole.small
      omega
  have written := writeBytes_at [] block [] record rfl size.symm
  rwa [List.nil_append,List.append_nil,List.nil_append,List.append_nil] at written

theorem Gathers.copying (gathers : Gathers works hours c (.copying index record :: places) rest)
    (taken : indexGetmanyCb.step malloc c (.copying index record) = some (after,next)) :
    Gathers works hours after (next.toList ++ places) rest := by
  have whole : Matching record := gathers.good (.copying index record) List.mem_cons_self
  simp only [indexGetmanyCb] at taken
  split at taken
  · rename_i block there
    simp only [whole.count,whole.whole,Option.bind_eq_bind,Option.bind_some] at taken
    obtain ⟨written,write,taken⟩ := Option.bind_eq_some_iff.mp taken
    obtain ⟨rfl,rfl⟩ := Prod.mk.inj (Option.some.inj taken)
    refine gathers.leave rfl ?_
    rw [List.set_eq_modify]
    refine (gathers.tickets.write (fun _ => some written) id fun entry content => ?_).done fun _ _ => rfl
    obtain rfl := Option.some.inj (there.symm.trans content)
    exact write.symm
  · rename_i other
    obtain ⟨rfl,rfl⟩ := Prod.mk.inj (Option.some.inj taken)
    refine gathers.leave rfl (gathers.tickets.done fun entry content => ?_)
    cases entry with
    | none => rfl
    | some block => exact absurd content (other block)

theorem gathers_keeps (enough : works.flatten.length ≤ hours) :
    indexGetmanyCb.Keeps (fun malloc => ∀ n, (malloc n).isSome) (Gathers works hours) where
  perm := Gathers.perm
  enter := Gathers.enter
  step {c place places rest malloc _ _} gathers gives taken := by
    cases place with
    | called r => exact gathers.called taken
    | adding record =>
      obtain ⟨rfl,rfl⟩ := Prod.mk.inj (Option.some.inj taken)
      exact gathers.take enough
    | testing index record => exact gathers.testing taken
    | storing index record => exact gathers.storing gives taken
    | copying index record => exact gathers.copying taken

theorem gathers_start (works : List (List CallbackRecord)) (hours : Nat)
    (good : ∀ r ∈ works.flatten, (IndexPlace.called r).Good) :
    Gathers works hours ⟨List.replicate hours none,0,[]⟩ [] works.flatten :=
  ⟨Tickets.none _,rfl,List.Perm.refl _,nofun,good⟩

/-! ### The digest array -/

/-- The counts of some records, added up. -/
def totalCount (records : List (List UInt8)) : Nat := (records.map countOf).sum

theorem totalCount_cons (record : List UInt8) (records : List (List UInt8)) :
    totalCount (record :: records) = countOf record + totalCount records := by
  rw [totalCount,totalCount,List.map_cons,List.sum_cons]

theorem countDigests_records {records : List (List UInt8)} (matching : ∀ record ∈ records, Matching record) (unused : Nat)
    (small : nDigests + totalCount records < 2 ^ 64) :
    countDigests nDigests (records.map some ++ List.replicate unused none) = some (nDigests + totalCount records) := by
  induction records generalizing nDigests with
  | nil =>
    induction unused with
    | zero => rfl
    | succ unused ih => exact ih
  | cons record records ih =>
    obtain ⟨first,others⟩ := List.forall_mem_cons.mp matching
    rw [totalCount_cons] at small ⊢
    rw [List.map_cons,List.cons_append,countDigests,first.count,Option.bind_eq_bind,Option.bind_some,Nat.mod_eq_of_lt (by omega),
      ih others (by omega)]
    exact congrArg some (by omega)

/-- The second pass writes the digests of each record behind those of the records before it. -/
theorem copyDigests_records {records : List (List UInt8)} (matching : ∀ record ∈ records, Matching record ∧ countOf record ≠ 0)
    (unused : Nat) (before room : List UInt8) (start : before.length = offset * 20)
    (size : room.length = totalCount records * 20) (small : offset + totalCount records < 2 ^ 31) :
    copyDigests offset (before ++ room) (records.map some ++ List.replicate unused none) =
      some (before ++ (records.map (List.drop 8)).flatten,List.replicate (records.length + unused) none) := by
  induction records generalizing offset before room with
  | nil =>
    obtain rfl : room = [] := List.length_eq_zero_iff.mp size
    have skipped : copyDigests offset before (List.replicate unused none) = some (before,List.replicate unused none) := by
      clear matching start size small
      induction unused with
      | zero => rfl
      | succ unused ih =>
        rw [List.replicate_succ,copyDigests,ih]
        rfl
    simpa using skipped
  | cons record records ih =>
    obtain ⟨⟨first,positive⟩,others⟩ := List.forall_mem_cons.mp matching
    rw [totalCount_cons] at size small
    have length := first.size
    have part : (room.take (countOf record * 20)).length = (record.drop 8).length := by
      rw [List.length_take_of_le (by omega),List.length_drop]
      omega
    have left : (room.drop (countOf record * 20)).length = totalCount records * 20 := by
      rw [List.length_drop]
      omega
    have read : redirectId record (countOf record) = some (record.drop 8) := by
      rw [redirectId,digestsSize,Nat.mod_eq_of_lt (by omega),readBytes,if_pos (by omega),List.take_of_length_le]
      rw [List.length_drop]
      omega
    have written := writeBytes_at before (room.take (countOf record * 20)) (room.drop (countOf record * 20)) (record.drop 8)
      start.symm part
    rw [List.take_append_drop] at written
    rw [List.map_cons,List.cons_append,copyDigests,first.count,Option.bind_eq_bind,Option.bind_some,if_neg positive,read,
      Option.bind_eq_bind,Option.bind_some,writeDigests,if_pos (by omega),written,Option.bind_some,Nat.mod_eq_of_lt (by omega),
      ← List.append_assoc,ih others (before ++ record.drop 8) _ ?_ left (by omega)]
    · simp [List.replicate_succ,Nat.add_right_comm]
    · rw [List.length_append,List.length_drop]
      omega

theorem cellsOf_flatten {records : List (List UInt8)} (matching : ∀ record ∈ records, Matching record) :
    cellsOf 20 (records.map (List.drop 8)).flatten = records.flatMap digestsOf := by
  induction records with
  | nil => rfl
  | cons record records ih =>
    obtain ⟨first,others⟩ := List.forall_mem_cons.mp matching
    have width : (record.drop 8).length = countOf record * 20 := by
      have size := first.size
      rw [List.length_drop]
      omega
    rw [List.map_cons,List.flatten_cons,cellsOf_append (by decide) width,ih others]
    rfl

theorem redirects_length {records : List (List UInt8)} (matching : ∀ record ∈ records, Matching record) :
    (records.map (List.drop 8)).flatten.length = totalCount records * 20 := by
  induction records with
  | nil => rfl
  | cons record records ih =>
    obtain ⟨first,others⟩ := List.forall_mem_cons.mp matching
    have size := first.size
    rw [List.map_cons,List.flatten_cons,List.length_append,ih others,totalCount_cons,List.length_drop]
    omega

/-- `group_query` on records that fill the first entries. -/
theorem groupQuery_records {malloc : Malloc} (gives : ∀ n, (malloc n).isSome) {records : List (List UInt8)}
    (matching : ∀ record ∈ records, Matching record ∧ countOf record ≠ 0) (unused : Nat)
    (small : totalCount records < 2 ^ 31) (some_ : totalCount records ≠ 0) :
    groupQuery malloc (records.map some ++ List.replicate unused none) =
      some (some ⟨totalCount records,(records.map (List.drop 8)).flatten,List.replicate (records.length + unused) none⟩) := by
  obtain ⟨block,given,length⟩ := mallocBlock_gives gives (totalCount records * 20)
  have counted := countDigests_records (fun record member => (matching record member).1) unused
    (by omega : 0 + totalCount records < 2 ^ 64)
  have copied := copyDigests_records matching unused [] block (Nat.zero_mul 20).symm length (by omega)
  rw [Nat.zero_add] at counted
  rw [List.nil_append] at copied
  rw [groupQuery,counted,Option.bind_eq_bind,Option.bind_some,if_neg some_,Nat.mod_eq_of_lt (by omega),given]
  dsimp only
  rw [copied]
  rfl

/-! ### All records -/

theorem countOf_le {records : List (List UInt8)} (member : record ∈ records) : countOf record ≤ totalCount records := by
  induction records with
  | nil => cases member
  | cons first records ih =>
    rw [totalCount_cons]
    rcases List.mem_cons.mp member with rfl | other
    · exact Nat.le_add_right ..
    · exact Nat.le_trans (ih other) (Nat.le_add_left ..)

/-- Records without digests do not count. -/
theorem nonempty_total (records : List (List UInt8)) :
    totalCount (records.filter fun record => countOf record ≠ 0) = totalCount records := by
  induction records with
  | nil => rfl
  | cons record records ih =>
    rw [totalCount_cons,← ih,List.filter_cons]
    by_cases zero : countOf record = 0
    · simp [zero]
    · simp [zero,totalCount_cons]

theorem nonempty_digests {records : List (List UInt8)} (matching : ∀ record ∈ records, Matching record) :
    (records.filter fun record => countOf record ≠ 0).flatMap digestsOf = records.flatMap digestsOf := by
  induction records with
  | nil => rfl
  | cons record records ih =>
    obtain ⟨first,others⟩ := List.forall_mem_cons.mp matching
    rw [List.flatMap_cons,← ih others,List.filter_cons]
    by_cases zero : countOf record = 0
    · have size := first.size
      have empty : record.drop 8 = [] := List.drop_eq_nil_of_le (by omega)
      simp [zero,digestsOf,empty,cellsOf]
    · simp [zero]

/-- The entries of `irs` that are being filled. -/
def lookupSlots (s : Workers CallbackRecord IndexPlace IndexLookups) : List Nat :=
  (s.places.filterMap IndexPlace.flight).map Prod.fst

/-- Whatever the threads do, entries are inside `irs` and each is of one record. Once each work is
through, every record with digests has its entry, and `group_query` makes one array of the
digests of all records. -/
theorem index_lookups_gathered (digests : List CfDigest) (works : List (List CallbackRecord)) (threads : Nat)
    (wellFormed : ∀ r ∈ works.flatten, WellFormedIndex r)
    (once : (works.flatten.map CallbackRecord.keyd).Subperm (digests.map fun digest => some digest.toList))
    (small : totalCount (works.flatten.filterMap indexBlob) < 2 ^ 31) (events : List (Nat × Malloc))
    (gives : ∀ event ∈ events, ∀ n, (event.2 n).isSome) (s : Workers CallbackRecord IndexPlace IndexLookups)
    (done : lookupRun works threads digests.length events = s) :
    (∀ index ∈ lookupSlots s, index < digests.length) ∧ (lookupSlots s).Nodup ∧
      (s.complete = works.length → ∃ records : List (List UInt8),
        records.Perm ((works.flatten.filterMap indexBlob).filter fun record => countOf record ≠ 0) ∧
        records.length ≤ digests.length ∧
        s.shared.irs = records.map some ++ List.replicate (digests.length - records.length) none ∧
        ∀ malloc : Malloc, (∀ n, (malloc n).isSome) →
          if totalCount (works.flatten.filterMap indexBlob) = 0 then groupQuery malloc s.shared.irs = some none
          else ∃ array, groupQuery malloc s.shared.irs =
              some (some ⟨totalCount (works.flatten.filterMap indexBlob),array,List.replicate digests.length none⟩) ∧
            array.length = totalCount (works.flatten.filterMap indexBlob) * 20 ∧
            (cellsOf 20 array).Perm ((works.flatten.filterMap indexBlob).flatMap digestsOf)) := by
  have enough : works.flatten.length ≤ digests.length := by
    have most := once.length_le
    rwa [List.length_map,List.length_map] at most
  have matching : ∀ r ∈ works.flatten, ∀ record, indexBlob r = some record → Matching record := by
    intro r member record blob
    obtain ⟨bin,address,there,bins,_,u,_,size⟩ := (wellFormed r member).blob
    have same : indexBlob r = some there := by rw [indexBlob,bins]; simp only [u]
    obtain rfl := Option.some.inj (same.symm.trans blob)
    exact ⟨size,Nat.lt_of_le_of_lt (countOf_le (List.mem_filterMap.mpr ⟨r,member,blob⟩)) small⟩
  have good : ∀ r ∈ works.flatten, (IndexPlace.called r).Good := fun r member => ⟨wellFormed r member,matching r member⟩
  obtain ⟨gathers,counts⟩ := (gathers_keeps enough).run threads (gathers_start works digests.length good) gives
  rw [← lookupRun,done] at gathers counts
  have room := gathers.tickets.room
  rw [List.length_map,List.length_replicate] at room
  refine ⟨?_,gathers.tickets.distinct,fun complete => ?_⟩
  · intro index member
    obtain ⟨flight,inside,rfl⟩ := List.mem_map.mp member
    have below := gathers.tickets.inside inside
    rw [List.length_map] at below
    exact Nat.lt_of_lt_of_le below room
  obtain ⟨places,rest⟩ := counts.through complete
  have kept := gathers.kept
  have tickets := gathers.tickets
  rw [places,rest,List.filterMap_nil,List.filterMap_nil,List.append_nil,List.append_nil] at kept
  rw [places,List.filterMap_nil] at tickets
  have full := tickets.complete
  rw [List.length_map,List.drop_replicate] at full
  have named : works.flatten.filterMap nonemptyBlob =
      (works.flatten.filterMap indexBlob).filter fun record => countOf record ≠ 0 := by
    rw [List.filter_filterMap]
    rfl
  rw [named] at kept
  have whole : ∀ record ∈ works.flatten.filterMap indexBlob, Matching record := by
    intro record member
    obtain ⟨r,there,blob⟩ := List.mem_filterMap.mp member
    exact matching r there record blob
  have total : totalCount s.shared.taken = totalCount (works.flatten.filterMap indexBlob) := by
    rw [← nonempty_total (works.flatten.filterMap indexBlob)]
    exact (kept.map countOf).sum_eq
  have valid : ∀ record ∈ s.shared.taken, Matching record ∧ countOf record ≠ 0 := by
    intro record member
    obtain ⟨there,positive⟩ := List.mem_filter.mp (kept.mem_iff.mp member)
    exact ⟨whole record there,by simpa using positive⟩
  refine ⟨s.shared.taken,kept,room,full,fun malloc gives => ?_⟩
  rw [full]
  rw [← total] at small ⊢
  split
  · rename_i zero
    have counted := countDigests_records (fun record member => (valid record member).1)
      (digests.length - s.shared.taken.length) (by omega : 0 + totalCount s.shared.taken < 2 ^ 64)
    rw [groupQuery,counted,zero]
    rfl
  · rename_i positive
    have made := groupQuery_records gives valid (digests.length - s.shared.taken.length) small positive
    rw [Nat.add_sub_cancel' room] at made
    refine ⟨_,made,?_,?_⟩
    · exact redirects_length fun record member => (valid record member).1
    · rw [cellsOf_flatten fun record member => (valid record member).1,← nonempty_digests whole]
      exact kept.flatMap_right digestsOf

/-- Two threads by turns, with memory. -/
def byTurns (n : Nat) : List (Nat × Malloc) :=
  (List.replicate n [(0,fun _ => some fun _ => 0),(1,fun _ => some fun _ => 0)]).flatten

theorem byTurns_gives (n : Nat) : ∀ move ∈ byTurns n, ∀ k, (move.2 k).isSome := by
  intro move member k
  simp only [byTurns,List.mem_flatten,List.mem_replicate] at member
  obtain ⟨pair,⟨_,rfl⟩,member⟩ := member
  simp only [List.mem_cons,List.not_mem_nil,or_false] at member
  rcases member with rfl | rfl <;> rfl

/-- Two works, the first of two records. -/
theorem index_lookups_gathered_sample :
    let digest (byte : UInt8) : CfDigest := Vector.replicate 20 byte
    let r (byte : UInt8) : CallbackRecord := ⟨[],some (digest byte).toList,none,5,6,[⟨⟨List.replicate 32 0,rfl⟩,
      ⟨clBlob,28,.ptr 1 ([1,0,0,0,0,0,0,0] ++ List.replicate 20 byte)⟩⟩]⟩
    let s := lookupRun [[r 7,r 8],[r 9]] 2 3 (byTurns 16)
    s.complete = 2 ∧ ∃ array, groupQuery (fun _ => some fun _ => 0) s.shared.irs = some (some ⟨3,array,[none,none,none]⟩) ∧
      array.length = 60 ∧ (cellsOf 20 array).Perm [List.replicate 20 7,List.replicate 20 8,List.replicate 20 9] := by
  intro digest r s
  have wellFormed : ∀ other ∈ [[r 7,r 8],[r 9]].flatten, WellFormedIndex other := by
    intro other member
    simp only [List.flatten_cons,List.flatten_nil,List.append_nil,List.cons_append,List.nil_append,List.mem_cons,
      List.not_mem_nil,or_false] at member
    rcases member with rfl | rfl | rfl <;> exact ⟨_,1,_,rfl,rfl,rfl,by decide,by decide +kernel⟩
  have all := index_lookups_gathered [digest 7,digest 8,digest 9] [[r 7,r 8],[r 9]] 2 wellFormed (List.Subperm.refl _)
    (by decide +kernel) (byTurns 16) (byTurns_gives 16) s rfl
  have complete : s.complete = 2 := by decide +kernel
  obtain ⟨records,_,_,_,made⟩ := all.2.2 complete
  have query := made (fun _ => some fun _ => 0) fun _ => rfl
  have total : totalCount ([[r 7,r 8],[r 9]].flatten.filterMap indexBlob) = 3 := by decide +kernel
  have found : ([[r 7,r 8],[r 9]].flatten.filterMap indexBlob).flatMap digestsOf =
      [List.replicate 20 7,List.replicate 20 8,List.replicate 20 9] := by decide +kernel
  rw [total,found,if_neg (Nat.succ_ne_zero 2)] at query
  exact ⟨complete,query⟩

end Citrusleaf
