import Citrusleaf.BatchCollectRuns
import Citrusleaf.Lib.Ledger
import Citrusleaf.Ownership

/-! `citrusleaf_copy_bins` with the heap. A copy that fails at some bin gives back the contents of
the bins before it and the array. Blocks go by numbers: the array is block 0, and the contents of
bin `i` are block `i + 1`. -/
namespace Citrusleaf
open Lib

inductive HeapCall where
  | alloc (block : Nat)
  | free (block : Nat)
  deriving DecidableEq

def heapBlocks : Ledger HeapCall Nat where
  takes
    | .alloc block => some block
    | .free _ => none
  gives
    | .alloc _ => none
    | .free block => some block

/-! ### The copies, with `object.free` -/

structure ObjectCopy where
  rv : Int
  object : ClObject
  free : Slot
  calls : List HeapCall

/-- `citrusleaf_copy_object`, whose contents would be the block of the given number. -/
def citrusleafCopyObjectOwned (malloc : Nat → Option UInt64) (block : Nat) (destobj srcobj : ClObject) : Option ObjectCopy :=
  let destobj := {destobj with type := srcobj.type,sz := srcobj.sz}
  if srcobj.type = clNull then some ⟨0,destobj,.null,[]⟩
  else if srcobj.type = clInt then some ⟨0,{destobj with u := .i64 srcobj.u.toI64},.null,[]⟩
  else if srcobj.type = clStr then
    match malloc (destobj.sz + 1) with
    | none => some ⟨-1,{destobj with u := .ptr 0 []},.null,[]⟩
    | some str => (srcobj.u.copy destobj.sz).map fun bytes =>
      ⟨0,{destobj with u := .ptr str (bytes ++ [0])},.block block,[.alloc block]⟩
  else if isBlob srcobj.type ∨ srcobj.type = clDigest then
    match malloc destobj.sz with
    | none => some ⟨-1,{destobj with u := .ptr 0 []},.null,[]⟩
    | some blob => (srcobj.u.copy destobj.sz).map fun bytes =>
      ⟨0,{destobj with u := .ptr blob bytes},.block block,[.alloc block]⟩
  else some ⟨-1,destobj,.null,[]⟩

structure BinCopy where
  rv : Int
  bin : OwnedBin
  calls : List HeapCall

def citrusleafCopyBinOwned (malloc : Nat → Option UInt64) (block : Nat) (destbin : OwnedBin) (srcbin : ClBin) : Option BinCopy :=
  (citrusleafCopyObjectOwned malloc block destbin.bin.object srcbin.object).map fun copy =>
    ⟨copy.rv,⟨⟨destbin.bin.binName.fill srcbin.binName.str,copy.object⟩,copy.free⟩,copy.calls⟩

/-- A bin of an array that `calloc` gave. -/
def OwnedBin.zero : OwnedBin := ⟨⟨BinName.zero,⟨0,0,.i64 0⟩⟩,.null⟩

/-- What `citrusleaf_bins_free` frees of the first bins of an array. -/
def binsFreed (bins : List OwnedBin) (nBins : Nat) : List HeapCall :=
  (blocksOf ((bins.take nBins).map OwnedBin.free)).map .free

/-- The loop from bin `i` on, behind the given calls. -/
def copyBinsOwnedFrom (malloc : Nat → Nat → Option UInt64) :
    Nat → List ClBin → List OwnedBin → List HeapCall → Option (Option (List OwnedBin) × List HeapCall)
  | _,[],newbins,calls => some (some newbins,calls)
  | i,srcbin :: srcbins,newbins,calls => do
    let copy ← citrusleafCopyBinOwned (malloc (i + 1)) (i + 1) (← newbins[i]?) srcbin
    let newbins := newbins.set i copy.bin
    if copy.rv = -1 then
      return (none,calls ++ copy.calls ++ (if i > 0 then binsFreed newbins i else []) ++ [.free 0])
    copyBinsOwnedFrom malloc (i + 1) srcbins newbins (calls ++ copy.calls)

/-- A `cl_bin *` and the array behind it. -/
structure BinsPtr where
  address : UInt64
  bins : List OwnedBin

structure CopyBins where
  rv : Int
  destbins : BinsPtr
  calls : List HeapCall

/-- `citrusleaf_copy_bins`, given what `*destbins` is. -/
def citrusleafCopyBinsOwned (malloc : Nat → Nat → Option UInt64) (destbins : BinsPtr) (srcbins : List ClBin) : Option CopyBins :=
  match malloc 0 (64 * srcbins.length) with
  | none => some ⟨-1,destbins,[]⟩
  | some address =>
    (copyBinsOwnedFrom malloc 0 srcbins (List.replicate srcbins.length .zero) [.alloc 0]).map fun out =>
      match out.1 with
      | none => ⟨-1,destbins,out.2⟩
      | some newbins => ⟨0,⟨address,newbins⟩,out.2⟩

/-! ### Without the heap they are the copies of a batch -/

theorem citrusleafCopyObjectOwned_forget (malloc : Nat → Option UInt64) (block : Nat) (srcobj : ClObject) :
    (citrusleafCopyObjectOwned malloc block ⟨0,0,.i64 0⟩ srcobj).map
      (fun copy => if copy.rv = -1 then none else some copy.object) = citrusleafCopyObject malloc srcobj := by
  rw [citrusleafCopyObjectOwned,citrusleafCopyObject]
  dsimp only
  split
  · rfl
  split
  · rfl
  split
  · cases malloc (srcobj.sz + 1) with
    | none => rfl
    | some str => cases srcobj.u.copy srcobj.sz <;> rfl
  split
  · cases malloc srcobj.sz with
    | none => rfl
    | some blob => cases srcobj.u.copy srcobj.sz <;> rfl
  · rfl

theorem citrusleafCopyBinOwned_forget (malloc : Nat → Option UInt64) (block : Nat) (srcbin : ClBin) :
    (citrusleafCopyBinOwned malloc block .zero srcbin).map
      (fun copy => if copy.rv = -1 then none else some copy.bin.bin) = citrusleafCopyBin malloc srcbin := by
  rw [citrusleafCopyBinOwned,citrusleafCopyBin,OwnedBin.zero,← citrusleafCopyObjectOwned_forget malloc block]
  simp only [Option.map_map]
  refine congrArg (Option.map · _) (funext fun copy => ?_)
  simp only [Function.comp]
  split <;> rfl

theorem getElem?_behind (copied : List OwnedBin) (more : Nat) :
    (copied ++ List.replicate (more + 1) OwnedBin.zero)[copied.length]? = some .zero := by
  rw [List.getElem?_append_right (Nat.le_refl _),Nat.sub_self]
  rfl

theorem set_behind (copied : List OwnedBin) (more : Nat) (new : OwnedBin) :
    (copied ++ List.replicate (more + 1) OwnedBin.zero).set copied.length new =
      copied ++ [new] ++ List.replicate more .zero := by
  rw [List.set_append_right _ _ (Nat.le_refl _),Nat.sub_self,List.append_assoc]
  rfl

theorem copyBinsOwnedFrom_forget (malloc : Nat → Nat → Option UInt64) (srcbins : List ClBin) (copied : List OwnedBin)
    (calls : List HeapCall) :
    (copyBinsOwnedFrom malloc copied.length srcbins (copied ++ List.replicate srcbins.length .zero) calls).map
        (fun out => out.1.map (·.map OwnedBin.bin)) =
      (copyBinsFrom malloc (copied.length + 1) srcbins).map fun newbins =>
        newbins.map (copied.map OwnedBin.bin ++ ·) := by
  induction srcbins generalizing copied calls with
  | nil => simp [copyBinsOwnedFrom,copyBinsFrom]
  | cons srcbin srcbins ih =>
    rw [copyBinsOwnedFrom,copyBinsFrom,List.length_cons,getElem?_behind,
      ← citrusleafCopyBinOwned_forget _ (copied.length + 1)]
    simp only [Option.bind_eq_bind,Option.bind_some,Option.pure_def]
    cases citrusleafCopyBinOwned (malloc (copied.length + 1)) (copied.length + 1) .zero srcbin with
    | none => rfl
    | some copy =>
      rw [Option.bind_some,Option.map_some,Option.bind_some,set_behind]
      split
      · rfl
      · have later := ih (copied ++ [copy.bin]) (calls ++ copy.calls)
        rw [List.length_append,List.length_singleton] at later
        rw [later]
        cases copyBinsFrom malloc (copied.length + 1 + 1) srcbins with
        | none => rfl
        | some newbins => cases newbins <;> simp

/-- The blocks do not change what is copied. -/
theorem citrusleafCopyBinsOwned_forget (malloc : Nat → Nat → Option UInt64) (destbins : BinsPtr) (srcbins : List ClBin) :
    (citrusleafCopyBinsOwned malloc destbins srcbins).map
        (fun out => if out.rv = 0 then some (out.destbins.bins.map OwnedBin.bin) else none) =
      citrusleafCopyBins malloc srcbins := by
  rw [citrusleafCopyBinsOwned,citrusleafCopyBins]
  cases malloc 0 (64 * srcbins.length) with
  | none => rfl
  | some address =>
    have loop := copyBinsOwnedFrom_forget malloc srcbins [] [.alloc 0]
    simp only [List.length_nil,List.nil_append,List.map_nil,Option.map_id',Nat.zero_add] at loop
    dsimp only
    rw [← loop,Option.map_map]
    refine congrArg (Option.map · _) (funext fun out => ?_)
    rw [Function.comp]
    cases out.1 <;> rfl

/-! ### One object -/

/-- Types whose contents are behind a pointer. -/
def HasContents (type : UInt32) : Prop := type = clStr ∨ isBlob type ∨ type = clDigest

/-- The types that `citrusleaf_copy_object` knows. -/
def CopyType (type : UInt32) : Prop := type = clNull ∨ type = clInt ∨ HasContents type

instance : Decidable (HasContents type) := inferInstanceAs (Decidable (_ ∨ _))

/-- The size of the block that a copy of an object asks for. No memory holds a string of so many
bytes that one more is none. -/
def contentsSize (obj : ClObject) : Option Nat :=
  if obj.type = clStr then some (obj.sz + 1)
  else if isBlob obj.type ∨ obj.type = clDigest then some obj.sz
  else none

/-- An object of a known type, whose allocation succeeds if it has one. -/
structure Copyable (malloc : Nat → Option UInt64) (obj : ClObject) : Prop where
  known : CopyType obj.type
  given : ∀ size, contentsSize obj = some size → (malloc size).isSome

/-- A bin without contents, or with the block of the given number as its contents. -/
inductive OwnMemory (malloc : Nat → Option UInt64) (block : Nat) : OwnedBin → Prop where
  | value : contentsSize bin.object = none → OwnMemory malloc block ⟨bin,.null⟩
  | contents : contentsSize bin.object = some bytes.length → bin.object.u = .ptr address bytes →
      malloc bytes.length = some address → OwnMemory malloc block ⟨bin,.block block⟩

/-- How `citrusleaf_copy_bin` ends. -/
inductive BinEnd (malloc : Nat → Option UInt64) (block : Nat) (obj : ClObject) : BinCopy → Prop where
  | copied : Copyable malloc obj → OwnMemory malloc block bin → 
      BinEnd malloc block obj ⟨0,bin,bin.free.owned.toList.map .alloc⟩
  | failed : ¬Copyable malloc obj → BinEnd malloc block obj ⟨-1,bin,[]⟩

theorem BinEnd.refused (size : contentsSize obj = some n) (none : malloc n = none) : BinEnd malloc block obj ⟨-1,bin,[]⟩ := by
  refine .failed fun copyable => ?_
  have given := copyable.given n size
  rw [none] at given
  cases given

theorem BinEnd.contents (size : contentsSize obj = some n) (known : HasContents obj.type) (given : malloc n = some address)
    (length : bytes.length = n) :
    BinEnd malloc block obj ⟨0,⟨⟨name,⟨obj.type,obj.sz,.ptr address bytes⟩⟩,.block block⟩,[.alloc block]⟩ := by
  subst length
  refine .copied ⟨.inr (.inr known),fun n asked => ?_⟩ (.contents size rfl given)
  obtain rfl := Option.some.inj (size.symm.trans asked)
  rw [given]
  rfl

theorem citrusleafCopyBinOwned_end (malloc : Nat → Option UInt64) (block : Nat) (srcbin : ClBin)
    (readable : HasContents srcbin.object.type → (srcbin.object.u.copy srcbin.object.sz).isSome) :
    ∃ copy, citrusleafCopyBinOwned malloc block .zero srcbin = some copy ∧ BinEnd malloc block srcbin.object copy := by
  obtain ⟨name,type,sz,u⟩ := srcbin
  rw [citrusleafCopyBinOwned,citrusleafCopyObjectOwned]
  dsimp only at readable ⊢
  split
  · rename_i null
    subst null
    exact ⟨_,rfl,.copied ⟨.inl rfl,nofun⟩ (.value rfl)⟩
  split
  · rename_i _ int
    subst int
    exact ⟨_,rfl,.copied ⟨.inr (.inl rfl),nofun⟩ (.value rfl)⟩
  split
  · rename_i _ _ str
    have size : contentsSize ⟨type,sz,u⟩ = some (sz + 1) := if_pos str
    obtain ⟨bytes,read⟩ := Option.isSome_iff_exists.mp (readable (.inl str))
    cases given : malloc (sz + 1) with
    | none => exact ⟨_,rfl,.refused size given⟩
    | some address =>
      rw [read]
      have length : (bytes ++ [0]).length = sz + 1 := by
        rw [List.length_append,ClUnion.copy_length read]
        rfl
      exact ⟨_,rfl,.contents size (.inl str) given length⟩
  split
  · rename_i _ _ str blob
    have size : contentsSize ⟨type,sz,u⟩ = some sz := (if_neg str).trans (if_pos blob)
    obtain ⟨bytes,read⟩ := Option.isSome_iff_exists.mp (readable (.inr blob))
    cases given : malloc sz with
    | none => exact ⟨_,rfl,.refused size given⟩
    | some address =>
      rw [read]
      exact ⟨_,rfl,.contents size (.inr blob) given (ClUnion.copy_length read)⟩
  · rename_i null int str blob
    refine ⟨_,rfl,.failed fun copyable => ?_⟩
    rcases copyable.known with type | type | type | type
    · exact null type
    · exact int type
    · exact str type
    · exact blob type

/-! ### All bins -/

/-- Each bin with the contents of its own number. -/
def OwnBins (malloc : Nat → Nat → Option UInt64) (bins : List OwnedBin) : Prop :=
  ∀ i new, bins[i]? = some new → OwnMemory (malloc (i + 1)) (i + 1) new

def CopyableFrom (malloc : Nat → Nat → Option UInt64) (i : Nat) (srcbins : List ClBin) : Prop :=
  ∀ j srcbin, srcbins[j]? = some srcbin → Copyable (malloc (i + j + 1)) srcbin.object

theorem OwnBins.snoc (own : OwnBins malloc bins) (new : OwnMemory (malloc (bins.length + 1)) (bins.length + 1) bin) :
    OwnBins malloc (bins ++ [bin]) := by
  intro i other given
  rcases Nat.lt_or_ge i bins.length with before | behind
  · rw [List.getElem?_append_left before] at given
    exact own i other given
  · obtain ⟨rfl,rfl⟩ : i = bins.length ∧ bin = other := by
      rw [List.getElem?_append_right behind,List.getElem?_singleton] at given
      split at given
      · exact ⟨by omega,Option.some.inj given⟩
      · cases given
    exact new

theorem copyableFrom_cons : CopyableFrom malloc i (srcbin :: srcbins) ↔
    Copyable (malloc (i + 1)) srcbin.object ∧ CopyableFrom malloc (i + 1) srcbins := by
  have number (j : Nat) : i + 1 + j + 1 = i + (j + 1) + 1 := by omega
  constructor
  · refine fun all => ⟨all 0 srcbin rfl,fun j other given => ?_⟩
    rw [number]
    exact all (j + 1) other given
  · rintro ⟨first,rest⟩ j other given
    cases j with
    | zero => exact Option.some.inj given ▸ first
    | succ j =>
      rw [← number]
      exact rest j other given

/-- The blocks that bins own. -/
def contentsOf (bins : List OwnedBin) : List Nat := blocksOf (bins.map OwnedBin.free)

theorem OwnMemory.slot (own : OwnMemory malloc block bin) : bin.free = .null ∨ bin.free = .block block := by
  cases own with
  | value => exact .inl rfl
  | contents => exact .inr rfl

/-- The array and the contents are different blocks. -/
theorem OwnBins.nodup (own : OwnBins malloc bins) : (0 :: contentsOf bins).Nodup := by
  have inside : (contentsOf bins).Sublist (List.range' 1 (bins.map OwnedBin.free).length) := by
    refine blocksOf_numbered fun j slot given => ?_
    rw [List.getElem?_map] at given
    obtain ⟨bin,there,rfl⟩ := Option.map_eq_some_iff.mp given
    rw [Nat.add_comm]
    exact (own j bin there).slot
  have numbers : (List.range' 0 ((bins.map OwnedBin.free).length + 1)).Nodup := List.nodup_range'
  exact numbers.sublist (inside.cons_cons 0)

/-- The calls that gave the array and the contents of bins. -/
def allocations (bins : List OwnedBin) : List HeapCall := (0 :: contentsOf bins).map .alloc

theorem allocations_snoc (bins : List OwnedBin) (new : OwnedBin) :
    allocations bins ++ new.free.owned.toList.map .alloc = allocations (bins ++ [new]) := by
  have both : contentsOf (bins ++ [new]) = contentsOf bins ++ new.free.owned.toList := by
    rw [contentsOf,List.map_append,blocksOf_append,List.map_singleton,blocksOf_cons]
    exact congrArg (blocksOf _ ++ ·) (List.append_nil _)
  rw [allocations,allocations,both,← List.map_append]
  rfl

/-- Only the bins before the one that failed are looked at. -/
theorem binsFreed_behind (copied : List OwnedBin) (more : Nat) (new : OwnedBin) :
    (if copied.length > 0 then
        binsFreed ((copied ++ List.replicate (more + 1) OwnedBin.zero).set copied.length new) copied.length
      else []) = (contentsOf copied).map .free := by
  split
  · rw [binsFreed,set_behind,List.append_assoc,List.take_left]
    rfl
  · rename_i none
    obtain rfl := List.eq_nil_of_length_eq_zero (Nat.eq_zero_of_not_pos none)
    rfl

/-- How the loop ends. -/
inductive CopyEnd (malloc : Nat → Nat → Option UInt64) (copyable : Prop) : Option (List OwnedBin) × List HeapCall → Prop where
  | copied : copyable → OwnBins malloc bins → CopyEnd malloc copyable (some bins,allocations bins)
  | undone : ¬copyable → OwnBins malloc bins →
      CopyEnd malloc copyable (none,allocations bins ++ (contentsOf bins).map .free ++ [.free 0])

theorem CopyEnd.congr (copy : CopyEnd malloc copyable out) (same : copyable ↔ other) : CopyEnd malloc other out := by
  cases copy with
  | copied yes own => exact .copied (same.mp yes) own
  | undone no own => exact .undone (mt same.mpr no) own

theorem copyBinsOwnedFrom_end (malloc : Nat → Nat → Option UInt64) (srcbins : List ClBin)
    (readable : ∀ srcbin ∈ srcbins, HasContents srcbin.object.type → (srcbin.object.u.copy srcbin.object.sz).isSome)
    (copied : List OwnedBin) (own : OwnBins malloc copied) :
    ∃ out, copyBinsOwnedFrom malloc copied.length srcbins (copied ++ List.replicate srcbins.length .zero)
        (allocations copied) = some out ∧ CopyEnd malloc (CopyableFrom malloc copied.length srcbins) out := by
  induction srcbins generalizing copied with
  | nil =>
    rw [copyBinsOwnedFrom,List.length_nil,List.replicate_zero,List.append_nil]
    exact ⟨_,rfl,.copied nofun own⟩
  | cons srcbin srcbins ih =>
    obtain ⟨copy,done,end_⟩ := citrusleafCopyBinOwned_end (malloc (copied.length + 1)) (copied.length + 1) srcbin
      (readable srcbin List.mem_cons_self)
    rw [copyBinsOwnedFrom,List.length_cons,getElem?_behind]
    simp only [Option.bind_eq_bind,Option.bind_some,Option.pure_def,done]
    cases end_ with
    | failed refused =>
      rw [if_pos rfl,binsFreed_behind,List.append_nil]
      exact ⟨_,rfl,.undone (fun all => refused (copyableFrom_cons.mp all).1) own⟩
    | copied copyable new =>
      obtain ⟨out,rest,ends⟩ := ih (fun other member => readable other (List.mem_cons_of_mem _ member)) _ (own.snoc new)
      rw [if_neg (show ¬(0 : Int) = -1 by decide),set_behind,allocations_snoc]
      rw [List.length_append,List.length_singleton] at rest ends
      exact ⟨out,rest,ends.congr ((copyableFrom_cons.trans (and_iff_right copyable)).symm)⟩

/-! ### All or nothing -/

/-- A new array of bins with the same names and values, and no block but the array and contents
that each bin has for its own. -/
structure Copied (malloc : Nat → Nat → Option UInt64) (srcbins : List ClBin) (out : CopyBins) : Prop where
  rv : out.rv = 0
  array : malloc 0 (64 * srcbins.length) = some out.destbins.address
  same : List.Forall₂ SameBin (out.destbins.bins.map OwnedBin.bin) srcbins
  own : OwnBins malloc out.destbins.bins
  distinct : (0 :: contentsOf out.destbins.bins).Nodup
  held : ∃ held, heapBlocks.settle [] out.calls = some held ∧ held.Perm (0 :: contentsOf out.destbins.bins)

/-- Nothing but a return of -1: each block is given back, and only once. -/
structure NotCopied (destbins : BinsPtr) (out : CopyBins) : Prop where
  rv : out.rv = -1
  destbins : out.destbins = destbins
  balanced : heapBlocks.Balanced out.calls
  once : ∀ block, .alloc block ∈ out.calls → out.calls.count (.free block) = 1

theorem allocations_held (bins : List OwnedBin) :
    heapBlocks.settle [] (allocations bins) = some (0 :: contentsOf bins).reverse := by
  rw [allocations,Ledger.settle_takes heapBlocks [] _ .alloc (fun _ => rfl) fun _ => rfl,List.append_nil]

theorem OwnBins.undone (own : OwnBins malloc bins) :
    NotCopied destbins ⟨-1,destbins,allocations bins ++ (contentsOf bins).map .free ++ [.free 0]⟩ := by
  have back : (contentsOf bins).map HeapCall.free ++ [.free 0] = (contentsOf bins ++ [0]).map .free := by
    rw [List.map_append]
    rfl
  have moved : (contentsOf bins ++ [0]).Perm (0 :: contentsOf bins) := List.perm_append_singleton 0 _
  refine ⟨rfl,rfl,?_,fun block given => ?_⟩
  · dsimp only
    rw [Ledger.Balanced,List.append_assoc,back,Ledger.settle_append,allocations_held,Option.bind_some]
    exact Ledger.settle_gives heapBlocks .free (fun _ => rfl) (fun _ => rfl)
      ((List.reverse_perm _).trans moved.symm)
  · dsimp only at given ⊢
    rw [List.append_assoc,back] at given ⊢
    have taken : block ∈ 0 :: contentsOf bins := by
      simpa [allocations] using given
    have none : (allocations bins).count (.free block) = 0 := by
      refine List.count_eq_zero.mpr ?_
      simp [allocations]
    rw [List.count_append,none,Nat.zero_add,List.count_map_of_injective _ _ fun _ _ => HeapCall.free.inj,
      moved.count_eq]
    exact List.count_eq_one_of_mem own.nodup taken

/-- `citrusleaf_copy_bins` copies all bins or leaves nothing behind, and it copies them exactly if
the array and all contents can be allocated and all types are known. -/
theorem copy_bins_all_or_nothing (malloc : Nat → Nat → Option UInt64) (destbins : BinsPtr) (srcbins : List ClBin)
    (readable : ∀ srcbin ∈ srcbins, HasContents srcbin.object.type → (srcbin.object.u.copy srcbin.object.sz).isSome) :
    ∃ out, citrusleafCopyBinsOwned malloc destbins srcbins = some out ∧
      (Copied malloc srcbins out ∨ NotCopied destbins out) ∧
      (out.rv = 0 ↔ (malloc 0 (64 * srcbins.length)).isSome ∧
        ∀ i srcbin, srcbins[i]? = some srcbin → Copyable (malloc (i + 1)) srcbin.object) := by
  have forget := citrusleafCopyBinsOwned_forget malloc destbins srcbins
  rw [citrusleafCopyBinsOwned] at forget ⊢
  cases array : malloc 0 (64 * srcbins.length) with
  | none => exact ⟨_,rfl,.inr ⟨rfl,rfl,rfl,nofun⟩,by simp⟩
  | some address =>
    obtain ⟨out,done,ends⟩ := copyBinsOwnedFrom_end malloc srcbins readable [] nofun
    have start : copyBinsOwnedFrom malloc 0 srcbins (List.replicate srcbins.length .zero) [.alloc 0] = some out := done
    have number : CopyableFrom malloc 0 srcbins ↔
        ∀ i srcbin, srcbins[i]? = some srcbin → Copyable (malloc (i + 1)) srcbin.object := by
      simp only [CopyableFrom,Nat.zero_add]
    rw [array] at forget
    dsimp only at forget ⊢
    rw [start,Option.map_some] at forget ⊢
    refine ⟨_,rfl,?_⟩
    cases ends.congr number with
    | copied copyable own =>
      have same := citrusleafCopyBins_same forget.symm
      exact ⟨.inl ⟨rfl,array,same,own,own.nodup,_,allocations_held _,List.reverse_perm _⟩,iff_of_true rfl ⟨rfl,copyable⟩⟩
    | undone refused own => exact ⟨.inr own.undone,iff_of_false (show ¬(-1 : Int) = 0 by decide) fun both => refused both.2⟩

/-- Two strings, of which the second may be refused. -/
theorem copy_bins_all_or_nothing_two :
    let srcbins : List ClBin := [⟨BinName.zero,⟨clStr,2,.ptr 64 [97,98]⟩⟩,⟨BinName.zero,⟨clStr,1,.ptr 128 [99]⟩⟩]
    (∃ out, citrusleafCopyBinsOwned (fun call _ => some (4096 * call).toUInt64) ⟨8,[]⟩ srcbins = some out ∧
      Copied (fun call _ => some (4096 * call).toUInt64) srcbins out) ∧
    ∃ out, citrusleafCopyBinsOwned (fun call _ => if call = 2 then none else some 4096) ⟨8,[]⟩ srcbins = some out ∧
      NotCopied ⟨8,[]⟩ out := by
  intro srcbins
  have readable : ∀ srcbin ∈ srcbins, HasContents srcbin.object.type →
      (srcbin.object.u.copy srcbin.object.sz).isSome := by decide
  obtain ⟨out,done,all,copies⟩ :=
    copy_bins_all_or_nothing (fun call _ => some (4096 * call).toUInt64) ⟨8,[]⟩ srcbins readable
  obtain ⟨out',done',all',copies'⟩ :=
    copy_bins_all_or_nothing (fun call _ => if call = 2 then none else some 4096) ⟨8,[]⟩ srcbins readable
  refine ⟨⟨out,done,all.resolve_right fun nothing => ?_⟩,⟨out',done',all'.resolve_left fun copied => ?_⟩⟩
  · have zero : out.rv = 0 := by
      refine copies.mpr ⟨rfl,fun i srcbin there => ⟨?_,fun _ _ => rfl⟩⟩
      have str : ∀ srcbin ∈ srcbins, srcbin.object.type = clStr := by decide
      exact .inr (.inr (.inl (str srcbin (List.mem_of_getElem? there))))
    rw [nothing.rv] at zero
    cases zero
  · have refused := (copies'.mp copied.rv).2 1 _ rfl
    have given := refused.given 2 rfl
    cases given

end Citrusleaf
