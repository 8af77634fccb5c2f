import Citrusleaf.Lib.Slots
import Citrusleaf.ParseBounds
import Citrusleaf.RequestRoundTrip

/-! Who frees the values of a response. `set_object` puts the block it allocates into `free`,
or null; a type it does not know leaves `free` as it was, and so does a bin that no
operation reaches. The parser is followed here with that pointer, over bins whose memory may
never have been written. -/
namespace Citrusleaf
open Lib

/-! ### `cl_parse` with the pointers to free -/

/-- A bin with its `object.free`. -/
structure OwnedBin where
  bin : ClBin
  free : Slot

/-- `malloc` by the number of the call, and what a new array of bins holds. -/
structure CallHeap where
  malloc : Nat → Nat → Option UInt64
  garbage : Nat → ClBin

/-- What `set_object` returns and stores, and the blocks after it. -/
structure StoredObject where
  rv : Int
  object : ClObject
  free : Slot
  blocks : Blocks

def setObjectOwned (malloc : Nat → Nat → Option UInt64) (blocks : Blocks) (buf : List UInt8) (op : Nat)
    (obj : ClObject) (free : Slot) : Option StoredObject := do
  let particleType ← opParticleType buf op
  let obj := {obj with type := particleType.toUInt32}
  if obj.type = clNull then return ⟨0,{obj with sz := 0},.null,blocks⟩
  else if obj.type = clInt then
    let (rv,value) ← opToValueInt buf (← clMsgOpGetValueP buf op) (toInt (← clMsgOpGetValueSz buf op))
    return ⟨rv,{obj with sz := 8,u := (value.map ClUnion.i64).getD obj.u},.null,blocks⟩
  else if obj.type = clStr then
    let obj := {obj with sz := ← clMsgOpGetValueSz buf op}
    match malloc blocks.calls (obj.sz + 1) with
    | none => return ⟨-1,{obj with u := .ptr 0 []},.null,blocks.fail⟩
    | some address =>
      let str ← readBytes buf (← clMsgOpGetValueP buf op) obj.sz
      return ⟨0,{obj with u := .ptr address (str ++ [0])},.block blocks.calls,blocks.give⟩
  else if isBlob obj.type then
    let obj := {obj with sz := ← clMsgOpGetValueSz buf op}
    match malloc blocks.calls obj.sz with
    | none => return ⟨-1,{obj with u := .ptr 0 []},.null,blocks.fail⟩
    | some address =>
      let blob ← readBytes buf (← clMsgOpGetValueP buf op) obj.sz
      return ⟨0,{obj with u := .ptr address blob},.block blocks.calls,blocks.give⟩
  else return ⟨-1,obj,free,blocks⟩

def clSetValueParticularOwned (malloc : Nat → Nat → Option UInt64) (blocks : Blocks) (buf : List UInt8) (op : Nat)
    (value : OwnedBin) : Option (OwnedBin × Blocks) := do
  let nameSz ← opNameSz buf op
  if nameSz > 32 then return (value,blocks)
  else
    let name ← readBytes buf (op + 8) nameSz
    let binName ← value.bin.binName.set name
    let stored ← setObjectOwned malloc blocks buf op value.bin.object value.free
    return (⟨⟨binName,stored.object⟩,stored.free⟩,stored.blocks)

def setValueSearchOwned (malloc : Nat → Nat → Option UInt64) (blocks : Blocks) (buf : List UInt8) (op : Nat) :
    List OwnedBin → Option (Int × List OwnedBin × Blocks)
  | [] => some (-1,[],blocks)
  | value :: values => do
    let nameSz ← opNameSz buf op
    let binName ← readBytes value.bin.binName.chars 0 nameSz
    let name ← readBytes buf (op + 8) nameSz
    if binName = name then
      let stored ← setObjectOwned malloc blocks buf op value.bin.object value.free
      return (0,⟨{value.bin with object := stored.object},stored.free⟩ :: values,stored.blocks)
    else
      let (rv,values,blocks) ← setValueSearchOwned malloc blocks buf op values
      return (rv,value :: values,blocks)

def parseOpsFreshOwned (malloc : Nat → Nat → Option UInt64) (start : Nat) :
    Blocks → List OwnedBin → List UInt8 → Nat → Option (Int × List OwnedBin × Blocks)
  | blocks,[],_,_ => some (0,[],blocks)
  | blocks,value :: values,buf,op =>
    if buf.length < start + 8 then some (-1,value :: values,blocks)
    else do
      let buf ← clMsgSwapOp buf op
      let (value,blocks) ← clSetValueParticularOwned malloc blocks buf op value
      let (rv,values,blocks) ← parseOpsFreshOwned malloc start blocks values buf (← clMsgOpGetNext buf op)
      return (rv,value :: values,blocks)

def parseOpsSearchOwned (malloc : Nat → Nat → Option UInt64) (start : Nat) :
    Nat → Blocks → List OwnedBin → List UInt8 → Nat → Option (Int × List OwnedBin × Blocks)
  | 0,blocks,values,_,_ => some (0,values,blocks)
  | n + 1,blocks,values,buf,op =>
    if buf.length < start + 8 then some (-1,values,blocks)
    else do
      let buf ← clMsgSwapOp buf op
      let (_,values,blocks) ← setValueSearchOwned malloc blocks buf op values
      parseOpsSearchOwned malloc start n blocks values buf (← clMsgOpGetNext buf op)

/-- A new array is memory that was never written. -/
def parseOpsOwned (heap : CallHeap) (blocks : Blocks) (nOps : Nat) (values : List OwnedBin) (buf : List UInt8) (start : Nat) :
    Option (Int × List OwnedBin × Blocks) :=
  if nOps > values.length then
    match heap.malloc blocks.calls (64 * nOps) with
    | none => some (-1,values,blocks.fail)
    | some _ =>
      parseOpsFreshOwned heap.malloc start blocks.give
        ((List.range nOps).map fun i => ⟨heap.garbage i,.unset⟩) buf start
  else parseOpsSearchOwned heap.malloc start nOps blocks values buf start

/-- `cl_parse` of `do_the_full_monte` for an array of bins. -/
def clParseOwned (heap : CallHeap) (blocks : Blocks) (msg : ClMsg) (buf : List UInt8) (values : List OwnedBin) :
    Option (Int × List OwnedBin × Blocks) := do
  let (rv,s) ← parseFields ⟨some ⟨false,values.map OwnedBin.bin⟩,true,false⟩ msg.nFields.toNat ⟨buf,0,none,none⟩
  if rv ≠ 0 then return (rv,values,blocks)
  parseOpsOwned heap blocks msg.nOps.toNat values s.buf s.mf

/-! ### Without the pointers it is `cl_parse` -/

/-- A heap whose calls behave alike. -/
def Heap.calls (heap : Heap) : CallHeap := ⟨fun _ => heap.malloc,heap.garbage⟩

def forget (out : Int × List OwnedBin × Blocks) : Int × List ClBin := (out.1,out.2.1.map OwnedBin.bin)

theorem setObjectOwned_forget (malloc : Nat → Nat → Option UInt64) (blocks : Blocks) (buf : List UInt8) (op : Nat)
    (obj : ClObject) (free : Slot) :
    (setObjectOwned malloc blocks buf op obj free).map (fun stored => (stored.rv,stored.object)) =
      setObject (malloc blocks.calls) buf op obj := by
  unfold setObjectOwned setObject
  simp only [Option.bind_eq_bind,Option.map_bind,Option.pure_def]
  congr
  funext particleType
  simp only [Function.comp]
  split
  · rfl
  split
  · simp only [Option.map_bind,Function.comp_def,Option.map_some]
  split
  · simp only [Option.map_bind,Function.comp_def]
    congr
    funext sz
    cases malloc blocks.calls (sz + 1) with
    | none => rfl
    | some address => simp only [Option.map_bind,Function.comp_def,Option.map_some]
  split
  · simp only [Option.map_bind,Function.comp_def]
    congr
    funext sz
    cases malloc blocks.calls sz with
    | none => rfl
    | some address => simp only [Option.map_bind,Function.comp_def,Option.map_some]
  · rfl

theorem clSetValueParticularOwned_forget (malloc : Nat → Nat → Option UInt64) (blocks : Blocks) (buf : List UInt8)
    (op : Nat) (value : OwnedBin) :
    (clSetValueParticularOwned malloc blocks buf op value).map (·.1.bin) =
      clSetValueParticular (malloc blocks.calls) buf op value.bin := by
  unfold clSetValueParticularOwned clSetValueParticular
  simp only [← setObjectOwned_forget malloc blocks buf op value.bin.object value.free,Option.bind_eq_bind,
    Option.map_bind,Option.pure_def,Option.bind_map]
  congr
  funext nameSz
  simp only [Function.comp]
  split
  · rfl
  · simp only [Option.map_bind,Function.comp_def,Option.map_some]

section
variable (malloc : Nat → Option UInt64)

theorem setValueSearchOwned_forget (blocks : Blocks) (buf : List UInt8) (op : Nat) (values : List OwnedBin) :
    (setValueSearchOwned (fun _ => malloc) blocks buf op values).map forget =
      setValueSearch malloc buf op (values.map OwnedBin.bin) := by
  induction values with
  | nil => rfl
  | cons value values ih =>
    rw [List.map_cons,setValueSearchOwned,setValueSearch,← ih,
      ← setObjectOwned_forget (fun _ => malloc) blocks buf op value.bin.object value.free]
    simp only [Option.bind_eq_bind,Option.map_bind,Option.pure_def,Option.bind_map,Function.comp_def]
    congr
    funext nameSz
    congr
    funext binName
    congr
    funext name
    split <;> simp only [Option.map_bind,Function.comp_def,Option.map_some,forget,List.map_cons]

theorem parseOpsFreshOwned_forget (start : Nat) (blocks : Blocks) (values : List OwnedBin) (buf : List UInt8) (op : Nat) :
    (parseOpsFreshOwned (fun _ => malloc) start blocks values buf op).map forget =
      parseOpsFresh malloc start (values.map OwnedBin.bin) buf op := by
  induction values generalizing blocks buf op with
  | nil => rfl
  | cons value values ih =>
    rw [List.map_cons,parseOpsFreshOwned,parseOpsFresh]
    split
    · rfl
    · simp only [← clSetValueParticularOwned_forget (fun _ => malloc) blocks,Option.bind_eq_bind,Option.map_bind,
        Option.pure_def,Option.bind_map,Function.comp_def]
      congr
      funext swapped
      congr
      funext out
      congr
      funext next
      rw [← ih out.2 swapped next]
      simp only [Option.bind_map,Function.comp_def,Option.map_some,forget,List.map_cons]

theorem parseOpsSearchOwned_forget (start n : Nat) (blocks : Blocks) (values : List OwnedBin) (buf : List UInt8) (op : Nat) :
    (parseOpsSearchOwned (fun _ => malloc) start n blocks values buf op).map forget =
      parseOpsSearch malloc start n (values.map OwnedBin.bin) buf op := by
  induction n generalizing blocks values buf op with
  | zero => rfl
  | succ n ih =>
    rw [parseOpsSearchOwned,parseOpsSearch]
    split
    · rfl
    · simp only [← setValueSearchOwned_forget malloc blocks,Option.bind_eq_bind,Option.map_bind,Option.bind_map,
        Function.comp_def]
      congr
      funext swapped
      congr
      funext out
      congr
      funext next
      exact ih out.2.2 out.2.1 swapped next

end

/-- The pointers do not change what is parsed. -/
theorem clParseOwned_forget (heap : Heap) (blocks : Blocks) (msg : ClMsg) (buf : List UInt8) (values : List OwnedBin) :
    (clParseOwned heap.calls blocks msg buf values).map forget =
      (clParse heap msg buf ⟨some ⟨false,values.map OwnedBin.bin⟩,true,false⟩).map fun parsed =>
        (parsed.rv,(parsed.values.map Values.bins).getD []) := by
  unfold clParseOwned clParse
  simp only [Option.bind_eq_bind,Option.map_bind]
  refine congrArg (Option.bind _) (funext fun out => ?_)
  simp only [Function.comp]
  split
  · rfl
  · unfold parseOpsOwned parseOps
    simp only [List.length_map,Values.itemSize,Heap.calls,Bool.false_eq_true,if_false]
    split
    · cases heap.malloc (64 * msg.nOps.toNat) with
      | none => rfl
      | some address =>
        have fresh := parseOpsFreshOwned_forget heap.malloc out.2.mf blocks.give
          ((List.range msg.nOps.toNat).map fun i => ⟨heap.garbage i,.unset⟩) out.2.buf out.2.mf
        rw [List.map_map] at fresh
        refine fresh.trans ?_
        change parseOpsFresh heap.malloc out.2.mf ((List.range msg.nOps.toNat).map heap.garbage) out.2.buf
          out.2.mf = _
        simp only [Option.bind_eq_bind,Option.pure_def,Option.bind_assoc,Option.bind_some,Option.map_bind,
          Function.comp_def,Option.map_some,Option.getD_some,Prod.mk.eta,Option.bind_fun_some]
    · refine (parseOpsSearchOwned_forget heap.malloc _ _ _ _ _ _).trans ?_
      simp only [Option.bind_eq_bind,Option.pure_def,Option.bind_assoc,Option.bind_some,Option.map_bind,
        Function.comp_def,Option.map_some,Option.getD_some,Prod.mk.eta,Option.bind_fun_some]

/-! ### One operation -/

/-- The bin an operation is looked up as: the first whose name starts as the operation's does. -/
def lookup (names : List BinName) (buf : List UInt8) (op : Nat) : Nat :=
  names.findIdx fun name => name.chars.take (nameSzAt buf op) = (buf.drop (op + 8)).take (nameSzAt buf op)

/-- A known type overwrites the pointer, any other leaves it. -/
inductive Frees (typed : Prop) (blocks : Blocks) (free : Slot) : Slot → Blocks → Prop where
  | stored : typed → SlotStep blocks slot after → Frees typed blocks free slot after
  | left : ¬typed → Frees typed blocks free free blocks

theorem Frees.congr (frees : Frees typed blocks free slot after) (same : typed ↔ other) :
    Frees other blocks free slot after := by
  cases frees with
  | stored typed step => exact .stored (same.mp typed) step
  | left untyped => exact .left (mt same.mpr untyped)

theorem setObjectOwned_frees (opened : OpenOp orig buf op)
    (done : setObjectOwned malloc blocks buf op obj free = some stored) :
    Frees (AcceptedType (typeAt orig op)) blocks free stored.free stored.blocks := by
  unfold setObjectOwned at done
  obtain ⟨particleType,read,done⟩ := Option.bind_eq_some_iff.mp done
  obtain rfl := opened.particle_type.meets read
  change (if typeAt orig op = clNull then _ else _) = _ at done
  split at done
  · rename_i type
    obtain rfl := Option.some.inj done
    exact .stored (.inl type) (.null_same _)
  split at done
  · rename_i type
    obtain ⟨_,_,done⟩ := Option.bind_eq_some_iff.mp done
    obtain ⟨_,_,done⟩ := Option.bind_eq_some_iff.mp done
    obtain ⟨_,_,done⟩ := Option.bind_eq_some_iff.mp done
    obtain rfl := Option.some.inj done
    exact .stored (.inr (.inl type)) (.null_same _)
  split at done
  · rename_i type
    obtain ⟨_,_,done⟩ := Option.bind_eq_some_iff.mp done
    dsimp only at done
    split at done
    · obtain rfl := Option.some.inj done
      exact .stored (.inr (.inr (.inl type))) (.null_fail _)
    · obtain ⟨_,_,done⟩ := Option.bind_eq_some_iff.mp done
      obtain ⟨_,_,done⟩ := Option.bind_eq_some_iff.mp done
      obtain rfl := Option.some.inj done
      exact .stored (.inr (.inr (.inl type))) .block
  split at done
  · rename_i type
    obtain ⟨_,_,done⟩ := Option.bind_eq_some_iff.mp done
    dsimp only at done
    split at done
    · obtain rfl := Option.some.inj done
      exact .stored (.inr (.inr (.inr type))) (.null_fail _)
    · obtain ⟨_,_,done⟩ := Option.bind_eq_some_iff.mp done
      obtain ⟨_,_,done⟩ := Option.bind_eq_some_iff.mp done
      obtain rfl := Option.some.inj done
      exact .stored (.inr (.inr (.inr type))) .block
  · rename_i null int str blob
    obtain rfl := Option.some.inj done
    refine .left fun typed => ?_
    rcases typed with type | type | type | type
    · exact null type
    · exact int type
    · exact str type
    · exact blob type

/-- The pointers of an array after an operation that may store in one of its bins. -/
inductive SlotsStep (typed : Prop) (target : Nat) (blocks : Blocks) (slots : List Slot) : List Slot → Blocks → Prop where
  | stored : typed → SlotStep blocks slot after → SlotsStep typed target blocks slots (slots.set target slot) after
  | left : ¬typed → SlotsStep typed target blocks slots slots blocks

theorem Frees.head (frees : Frees typed blocks free slot after) :
    SlotsStep typed 0 blocks (free :: slots) (slot :: slots) after := by
  cases frees with
  | stored typed step =>
    change SlotsStep _ 0 blocks (free :: slots) ((free :: slots).set 0 slot) after
    exact .stored typed step
  | left untyped => exact .left untyped

theorem SlotsStep.cons (step : SlotsStep typed target blocks slots changed after) :
    SlotsStep typed (target + 1) blocks (slot :: slots) (slot :: changed) after := by
  cases step with
  | stored typed one =>
    change SlotsStep _ (target + 1) blocks (slot :: slots) ((slot :: slots).set (target + 1) _) after
    exact .stored typed one
  | left untyped => exact .left untyped

/-- A search stores in the bin that is looked up, if there is one and the type is known. -/
theorem setValueSearchOwned_slots (opened : OpenOp orig buf op)
    (done : setValueSearchOwned malloc blocks buf op values = some (rv,found,after)) :
    found.map (·.bin.binName) = values.map (·.bin.binName) ∧
      SlotsStep (AcceptedType (typeAt orig op)) (lookup (values.map (·.bin.binName)) orig op) blocks
        (values.map OwnedBin.free) (found.map OwnedBin.free) after := by
  induction values generalizing found rv with
  | nil =>
    obtain ⟨_,rest⟩ := Prod.mk.inj (Option.some.inj done)
    obtain ⟨rfl,rfl⟩ := Prod.mk.inj rest
    refine ⟨rfl,?_⟩
    by_cases typed : AcceptedType (typeAt orig op)
    · change SlotsStep _ (lookup [] orig op) blocks [] (List.set [] (lookup [] orig op) .null) blocks
      exact .stored typed (.null_same _)
    · exact .left typed
  | cons value values ih =>
    unfold setValueSearchOwned at done
    obtain ⟨nameSz,sized,done⟩ := Option.bind_eq_some_iff.mp done
    obtain rfl := opened.name_sz.meets sized
    obtain ⟨binName,read,done⟩ := Option.bind_eq_some_iff.mp done
    obtain rfl := ((Agree.refl 0 _).readBytes_checked (Nat.le_refl 0)).meets read
    obtain ⟨name,received,done⟩ := Option.bind_eq_some_iff.mp done
    obtain rfl := (opened.agree.readBytes_checked (by omega)).meets received
    simp only [List.map_cons,lookup,List.findIdx_cons]
    rw [List.drop_zero] at done
    split at done
    · rename_i same
      obtain ⟨stored,set,done⟩ := Option.bind_eq_some_iff.mp done
      obtain ⟨_,rest⟩ := Prod.mk.inj (Option.some.inj done)
      obtain ⟨rfl,rfl⟩ := Prod.mk.inj rest
      rw [decide_eq_true same,cond_true]
      exact ⟨rfl,(setObjectOwned_frees opened set).head⟩
    · rename_i other
      obtain ⟨⟨_,later,_⟩,searched,done⟩ := Option.bind_eq_some_iff.mp done
      obtain ⟨_,rest⟩ := Prod.mk.inj (Option.some.inj done)
      obtain ⟨rfl,rfl⟩ := Prod.mk.inj rest
      obtain ⟨names,step⟩ := ih searched
      rw [decide_eq_false other,cond_false]
      exact ⟨congrArg (value.bin.binName :: ·) names,step.cons⟩

/-- A new bin is stored in when its name is short enough and the type is known. -/
theorem clSetValueParticularOwned_frees (opened : OpenOp orig buf op)
    (done : clSetValueParticularOwned malloc blocks buf op value = some (filled,after)) :
    Frees (nameSzAt orig op ≤ 32 ∧ AcceptedType (typeAt orig op)) blocks value.free filled.free after := by
  unfold clSetValueParticularOwned at done
  obtain ⟨nameSz,sized,done⟩ := Option.bind_eq_some_iff.mp done
  obtain rfl := opened.name_sz.meets sized
  split at done
  · rename_i long
    obtain ⟨rfl,rfl⟩ := Prod.mk.inj (Option.some.inj done)
    exact .left fun both => absurd both.1 (Nat.not_le.mpr long)
  · rename_i short
    obtain ⟨_,_,done⟩ := Option.bind_eq_some_iff.mp done
    obtain ⟨_,_,done⟩ := Option.bind_eq_some_iff.mp done
    obtain ⟨stored,set,done⟩ := Option.bind_eq_some_iff.mp done
    obtain ⟨rfl,rfl⟩ := Prod.mk.inj (Option.some.inj done)
    exact (setObjectOwned_frees opened set).congr (and_iff_right (Nat.not_lt.mp short)).symm

/-! ### All operations -/

/-- The size is swapped before an operation is read, and the next one starts behind it. -/
theorem openOp_of_swap (agree : Agree op orig buf) (swapped : clMsgSwapOp buf op = some after)
    (named : opNameSz after op = some nameSz) : OpenOp orig after op := by
  obtain ⟨same,size⟩ := agree.swapWord_checked.meets swapped
  obtain ⟨byte,read,_⟩ := Option.map_eq_some_iff.mp named
  have inside := (same.readByte_checked (by omega : op + 4 ≤ op + 7)).isSome_iff.mp (read ▸ rfl)
  exact ⟨by omega,same,size⟩

/-- Whether an operation stores in a bin of a new array. -/
def FreshStores (buf : List UInt8) (op : Nat) : Prop := nameSzAt buf op ≤ 32 ∧ AcceptedType (typeAt buf op)

/-- Whether an operation stores in bin `j` of the caller's array. -/
def SearchStores (names : List BinName) (buf : List UInt8) (op j : Nat) : Prop :=
  lookup names buf op = j ∧ AcceptedType (typeAt buf op)

theorem Frees.kept (frees : Frees typed blocks free slot after) (kept : Kept blocks (before ++ free :: rest)) :
    Kept after (before ++ slot :: rest) := by
  cases frees with
  | stored typed step => exact kept.step step
  | left untyped => exact kept

theorem Frees.unset_iff (frees : Frees typed blocks free slot after) :
    slot = .unset ↔ free = .unset ∧ ¬typed := by
  cases frees with
  | stored typed step => exact iff_of_false step.set fun both => both.2 typed
  | left untyped => exact (and_iff_left untyped).symm

/-- The loop over a new array leaves unset what was unset and is not stored in. -/
theorem parseOpsFreshOwned_slots (agree : Agree op orig buf)
    (done : parseOpsFreshOwned malloc start blocks values buf op = some (0,filled,after))
    (kept : Kept blocks (before ++ values.map OwnedBin.free)) :
    Kept after (before ++ filled.map OwnedBin.free) ∧ ∀ j : Nat, (filled.map OwnedBin.free)[j]? = some .unset ↔
      (values.map OwnedBin.free)[j]? = some .unset ∧ ¬FreshStores orig (itemAt orig op j) := by
  induction values generalizing blocks buf op filled before with
  | nil =>
    obtain ⟨_,rest⟩ := Prod.mk.inj (Option.some.inj done)
    obtain ⟨rfl,rfl⟩ := Prod.mk.inj rest
    exact ⟨kept,fun j => by simp⟩
  | cons value values ih =>
    unfold parseOpsFreshOwned at done
    split at done
    · cases done
    · obtain ⟨swapped,turned,done⟩ := Option.bind_eq_some_iff.mp done
      obtain ⟨⟨first,more⟩,stored,done⟩ := Option.bind_eq_some_iff.mp done
      obtain ⟨next,moved,done⟩ := Option.bind_eq_some_iff.mp done
      obtain ⟨⟨rv,later,_⟩,looped,done⟩ := Option.bind_eq_some_iff.mp done
      obtain ⟨rfl,rest⟩ := Prod.mk.inj (Option.some.inj done)
      obtain ⟨rfl,rfl⟩ := Prod.mk.inj rest
      obtain ⟨nameSz,named,_⟩ := Option.bind_eq_some_iff.mp stored
      have opened := openOp_of_swap agree turned named
      obtain rfl := opened.get_next.meets moved
      have frees := clSetValueParticularOwned_frees opened stored
      have step := frees.kept kept
      have behind := opened.agree.later (Nat.le_add_right (op + 4) (wordAt orig op))
      rw [List.append_cons] at step
      obtain ⟨whole,unset⟩ := ih behind looped step
      rw [← List.append_cons] at whole
      refine ⟨whole,fun j => ?_⟩
      cases j with
      | zero =>
        simp only [List.map_cons,List.getElem?_cons_zero,Option.some.injEq,itemAt]
        exact frees.unset_iff
      | succ j =>
        simp only [List.map_cons,List.getElem?_cons_succ]
        exact unset j

theorem SlotsStep.kept (step : SlotsStep typed target blocks slots changed after) (kept : Kept blocks slots) :
    Kept after changed := by
  cases step with
  | stored typed one => exact kept.set one target
  | left untyped => exact kept

theorem SlotsStep.unset_iff (step : SlotsStep typed target blocks slots changed after) (j : Nat) :
    changed[j]? = some .unset ↔ slots[j]? = some .unset ∧ ¬(target = j ∧ typed) := by
  cases step with
  | stored typed one =>
    rw [List.getElem?_set]
    by_cases here : target = j
    · rw [if_pos here]
      refine iff_of_false (fun unset => ?_) fun both => both.2 ⟨here,typed⟩
      split at unset
      · exact one.set (Option.some.inj unset)
      · cases unset
    · rw [if_neg here]
      exact (and_iff_left fun both => here both.1).symm
  | left untyped => exact (and_iff_left fun both => untyped both.2).symm

/-- The loop over the caller's array leaves unset what was unset and no operation stores in. -/
theorem parseOpsSearchOwned_slots (agree : Agree op orig buf) (filled : n ≠ 0 → values ≠ [])
    (done : parseOpsSearchOwned malloc start n blocks values buf op = some (0,found,after))
    (kept : Kept blocks (values.map OwnedBin.free)) :
    Kept after (found.map OwnedBin.free) ∧ ∀ j : Nat, (found.map OwnedBin.free)[j]? = some .unset ↔
      (values.map OwnedBin.free)[j]? = some .unset ∧
        ∀ i < n, ¬SearchStores (values.map (·.bin.binName)) orig (itemAt orig op i) j := by
  induction n generalizing blocks buf op values with
  | zero =>
    obtain ⟨_,rest⟩ := Prod.mk.inj (Option.some.inj done)
    obtain ⟨rfl,rfl⟩ := Prod.mk.inj rest
    exact ⟨kept,fun j => (and_iff_left nofun).symm⟩
  | succ n ih =>
    unfold parseOpsSearchOwned at done
    split at done
    · cases done
    · obtain ⟨swapped,turned,done⟩ := Option.bind_eq_some_iff.mp done
      obtain ⟨⟨rv,later,more⟩,searched,done⟩ := Option.bind_eq_some_iff.mp done
      obtain ⟨next,moved,done⟩ := Option.bind_eq_some_iff.mp done
      have named : ∃ nameSz, opNameSz swapped op = some nameSz := by
        cases values with
        | nil => exact absurd rfl (filled n.succ_ne_zero)
        | cons value values =>
          obtain ⟨nameSz,named,_⟩ := Option.bind_eq_some_iff.mp searched
          exact ⟨nameSz,named⟩
      obtain ⟨nameSz,named⟩ := named
      have opened := openOp_of_swap agree turned named
      obtain rfl := opened.get_next.meets moved
      obtain ⟨names,step⟩ := setValueSearchOwned_slots opened searched
      have behind := opened.agree.later (Nat.le_add_right (op + 4) (wordAt orig op))
      have left : n ≠ 0 → later ≠ [] := by
        rintro _ rfl
        exact filled n.succ_ne_zero (List.map_eq_nil_iff.mp names.symm)
      obtain ⟨whole,unset⟩ := ih behind left done (step.kept kept)
      refine ⟨whole,fun j => ?_⟩
      rw [unset j,step.unset_iff j,names,and_assoc,
        all_items_succ orig (fun op => ¬SearchStores (values.map (·.bin.binName)) orig op j)]
      rfl

/-! ### The arrays that are handed back -/

/-- The operations start where the chain of fields ends. -/
def opsStart (msg : ClMsg) (buf : List UInt8) : Nat := itemAt buf 0 msg.nFields.toNat

theorem parseFields_done (caller : ParseCaller) (done : parseFields caller n ⟨buf,0,none,none⟩ = some (0,s)) :
    s.mf = itemAt buf 0 n ∧ Agree s.mf buf s.buf := by
  by_cases room : 5 ≤ buf.length
  · have fields := parseFields_checked caller n ⟨buf,0,none,none⟩ (Agree.refl 0 buf) room
    exact (fields.meets done).2
  · cases n with
    | zero =>
      obtain ⟨_,rfl⟩ := Prod.mk.inj (Option.some.inj done)
      exact ⟨rfl,Agree.refl 0 buf⟩
    | succ n =>
      rw [parseFields,if_pos (Nat.not_le.mp room)] at done
      cases done

theorem owns_iff (kept : Kept blocks slots) : Owns blocks.live slots ↔ ∀ j : Nat, slots[j]? ≠ some .unset := by
  rw [kept.owns_iff,List.mem_iff_getElem?,not_exists]

/-- `citrusleaf_get_all` starts without an array. -/
def citrusleafGetAllBins (heap : CallHeap) (blocks : Blocks) (msg : ClMsg) (buf : List UInt8) :
    Option (Int × List OwnedBin × Blocks) := clParseOwned heap blocks msg buf []

/-- `citrusleaf_get` hands on the address of its own copy of the pointer, so its caller keeps
the array it passed even when a larger one is allocated. -/
def citrusleafGetBins (heap : CallHeap) (blocks : Blocks) (msg : ClMsg) (buf : List UInt8) (values : List OwnedBin) :
    Option (Int × List OwnedBin × Blocks) := do
  let (rv,found,blocks) ← clParseOwned heap blocks msg buf values
  return (rv,if msg.nOps.toNat > values.length then values else found,blocks)

/-- `citrusleaf_bins_free` on the blocks that are live. -/
def citrusleafBinsFree (live : List Nat) (bins : List OwnedBin) : Option (List Nat) :=
  freeAll live (bins.map OwnedBin.free)

/-- The pointers after the operations: in a new array, or in the array that was passed. -/
theorem clParseOwned_slots (done : clParseOwned heap blocks msg buf values = some (0,found,after))
    (kept : Kept blocks (values.map OwnedBin.free)) :
    (msg.nOps.toNat > values.length ∧ Kept after (values.map OwnedBin.free ++ found.map OwnedBin.free) ∧
      ∀ j : Nat, (found.map OwnedBin.free)[j]? = some .unset ↔
        j < msg.nOps.toNat ∧ ¬FreshStores buf (itemAt buf (opsStart msg buf) j)) ∨
    (¬msg.nOps.toNat > values.length ∧ Kept after (found.map OwnedBin.free) ∧
      ∀ j : Nat, (found.map OwnedBin.free)[j]? = some .unset ↔ (values.map OwnedBin.free)[j]? = some .unset ∧
        ∀ i < msg.nOps.toNat,
          ¬SearchStores (values.map (·.bin.binName)) buf (itemAt buf (opsStart msg buf) i) j) := by
  obtain ⟨⟨rv,s⟩,fields,done⟩ := Option.bind_eq_some_iff.mp done
  dsimp only at done
  split at done
  · rename_i failed
    exact absurd (Prod.mk.inj (Option.some.inj done)).1 failed
  · rename_i zero
    obtain rfl : rv = 0 := Decidable.not_not.mp zero
    obtain ⟨atOps,agree⟩ := parseFields_done _ fields
    unfold parseOpsOwned at done
    unfold opsStart
    rw [← atOps]
    split at done
    · rename_i more
      left
      split at done
      · cases done
      · have unset : ((List.range msg.nOps.toNat).map fun i => (⟨heap.garbage i,.unset⟩ : OwnedBin)).map
            OwnedBin.free = List.replicate msg.nOps.toNat .unset := by
          rw [List.map_map]
          exact List.map_const'.trans (by rw [List.length_range])
        have start : Kept blocks.give (values.map OwnedBin.free ++
            ((List.range msg.nOps.toNat).map fun i => (⟨heap.garbage i,.unset⟩ : OwnedBin)).map OwnedBin.free) := by
          rw [unset]
          exact kept.give.append_unset msg.nOps.toNat
        obtain ⟨whole,slots⟩ := parseOpsFreshOwned_slots agree done start
        refine ⟨more,whole,fun j => ?_⟩
        rw [slots j,unset,List.getElem?_replicate]
        simp only [ite_eq_left_iff,reduceCtorEq,imp_false,Decidable.not_not]
    · rename_i enough
      right
      have filled : msg.nOps.toNat ≠ 0 → values ≠ [] := by
        rintro some rfl
        exact enough (Nat.pos_of_ne_zero some)
      obtain ⟨whole,slots⟩ := parseOpsSearchOwned_slots agree filled done kept
      exact ⟨enough,whole,slots⟩

/-- Every bin of a new array is stored in. -/
def AllFresh (msg : ClMsg) (buf : List UInt8) : Prop :=
  ∀ j < msg.nOps.toNat, FreshStores buf (itemAt buf (opsStart msg buf) j)

/-- The bins of the caller that were unset are stored in, in the caller's array. -/
def AllFound (msg : ClMsg) (buf : List UInt8) (values : List OwnedBin) : Prop :=
  ∀ j : Nat, (values.map OwnedBin.free)[j]? = some .unset → msg.nOps.toNat ≤ values.length ∧
    ∃ i < msg.nOps.toNat, SearchStores (values.map (·.bin.binName)) buf (itemAt buf (opsStart msg buf) i) j

theorem citrusleafGetAllBins_owns (done : citrusleafGetAllBins heap blocks msg buf = some (0,bins,after)) :
    Owns after.live (bins.map OwnedBin.free) ↔ AllFresh msg buf := by
  have start : Kept blocks (([] : List OwnedBin).map OwnedBin.free) := ⟨List.nodup_nil,nofun⟩
  rcases clParseOwned_slots done start with ⟨_,kept,unset⟩ | ⟨few,kept,unset⟩
  · rw [owns_iff kept.append_right]
    simp only [ne_eq,unset,not_and,not_not]
    rfl
  · have none : msg.nOps.toNat = 0 := Nat.eq_zero_of_not_pos few
    refine iff_of_true ((owns_iff kept).mpr fun j found => ?_) fun j below => ?_
    · cases ((unset j).mp found).1
    · omega

theorem citrusleafGetBins_owns (kept : Kept blocks (values.map OwnedBin.free))
    (done : citrusleafGetBins heap blocks msg buf values = some (0,bins,after)) :
    Owns after.live (bins.map OwnedBin.free) ↔ AllFound msg buf values := by
  obtain ⟨⟨rv,found,more⟩,parsed,done⟩ := Option.bind_eq_some_iff.mp done
  obtain ⟨rfl,rest⟩ := Prod.mk.inj (Option.some.inj done)
  obtain ⟨rfl,rfl⟩ := Prod.mk.inj rest
  rcases clParseOwned_slots parsed kept with ⟨many,kept,_⟩ | ⟨enough,kept,unset⟩
  · rw [if_pos many,owns_iff kept.append_left]
    constructor
    · intro whole j given
      exact absurd given (whole j)
    · intro all j given
      exact absurd (all j given).1 (Nat.not_le.mpr many)
  · rw [if_neg enough,owns_iff kept]
    simp only [ne_eq,unset,not_and,not_forall,not_not,exists_prop]
    exact forall₂_congr fun j _ => (and_iff_right (Nat.not_lt.mp enough)).symm

/-- The bins that are handed back own what they free exactly when each of them that was unset
is stored in: by an operation with a name that fits and a known type in a new array, by one that
is looked up as it and has a known type in the caller's. -/
theorem returned_bins_own (heap : CallHeap) (blocks : Blocks) (msg : ClMsg) (buf : List UInt8)
    (values : List OwnedBin) (kept : Kept blocks (values.map OwnedBin.free)) :
    (∀ bins after, citrusleafGetAllBins heap blocks msg buf = some (0,bins,after) →
      (Owns after.live (bins.map OwnedBin.free) ↔ AllFresh msg buf)) ∧
    (∀ bins after, citrusleafGetBins heap blocks msg buf values = some (0,bins,after) →
      (Owns after.live (bins.map OwnedBin.free) ↔ AllFound msg buf values)) :=
  ⟨fun _ _ done => citrusleafGetAllBins_owns done,fun _ _ done => citrusleafGetBins_owns kept done⟩

/-- A bin whose pointer was never written. -/
def unsetBin : OwnedBin := ⟨sampleBin (citrusleafObjectInitNull unsetObject),.unset⟩

/-- The value of a string is a block of its own, behind the one for a new array. -/
theorem returned_bins_own_string :
    let op : List UInt8 := [0,0,0,5,1,3,0,0,120]
    (∃ bins after, citrusleafGetAllBins sampleHeap.calls .none (sampleMsg 1) op = some (0,bins,after) ∧
      bins.map OwnedBin.free = [.block 1] ∧ Owns after.live (bins.map OwnedBin.free)) ∧
    (∃ bins after, citrusleafGetBins sampleHeap.calls .none (sampleMsg 1) op [unsetBin] = some (0,bins,after) ∧
      bins.map OwnedBin.free = [.block 0] ∧ Owns after.live (bins.map OwnedBin.free)) := by
  intro op
  obtain ⟨all,get⟩ := returned_bins_own sampleHeap.calls .none (sampleMsg 1) op [unsetBin] ⟨List.nodup_nil,nofun⟩
  constructor
  · obtain ⟨⟨rv,bins,after⟩,given,same⟩ := Option.map_eq_some_iff.mp (by decide +kernel :
      (citrusleafGetAllBins sampleHeap.calls .none (sampleMsg 1) op).map (fun out => (out.1,out.2.1.map OwnedBin.free)) =
        some (0,[.block 1]))
    obtain ⟨rfl,frees⟩ := Prod.mk.inj same
    refine ⟨bins,after,given,frees,(all bins after given).mpr fun j below => ?_⟩
    obtain rfl : j = 0 := Nat.lt_one_iff.mp below
    exact ⟨by decide,.inr (.inr (.inl (by decide)))⟩
  · obtain ⟨⟨rv,bins,after⟩,given,same⟩ := Option.map_eq_some_iff.mp (by decide +kernel :
      (citrusleafGetBins sampleHeap.calls .none (sampleMsg 1) op [unsetBin]).map
        (fun out => (out.1,out.2.1.map OwnedBin.free)) = some (0,[.block 0]))
    obtain ⟨rfl,frees⟩ := Prod.mk.inj same
    refine ⟨bins,after,given,frees,(get bins after given).mpr fun j unset => ?_⟩
    obtain rfl : j = 0 := by
      have inside : j < 1 := (List.getElem?_eq_some_iff.mp unset).1
      omega
    exact ⟨by decide,0,by decide,by decide,.inr (.inr (.inl (by decide)))⟩

/-- `citrusleaf_bins_free` frees a live block for each pointer exactly when the bins own them. -/
theorem citrusleafBinsFree_isSome (blocks : Blocks) (bins : List OwnedBin) :
    (citrusleafBinsFree blocks.live bins).isSome ↔ Owns blocks.live (bins.map OwnedBin.free) :=
  freeAll_isSome blocks.distinct

/-- One operation without a name and of the given type. -/
def namelessOp (type : UInt8) : List UInt8 := [0,0,0,4,1,type,0,0]

/-- The bin of an operation of type 2 is handed back unset. -/
theorem unknown_type_unset : ¬∀ (heap : CallHeap) (blocks : Blocks) (msg : ClMsg) (buf : List UInt8) bins after,
    citrusleafGetAllBins heap blocks msg buf = some (0,bins,after) → Owns after.live (bins.map OwnedBin.free) := by
  intro every
  have owns := every sampleHeap.calls .none (sampleMsg 1) (namelessOp 2) _ _ rfl
  rcases owns.each .unset List.mem_cons_self with null | ⟨call,_,block⟩
  · cases null
  · cases block

end Citrusleaf
