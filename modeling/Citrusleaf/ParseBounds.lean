import Citrusleaf.Lib.Checked
import Citrusleaf.Parse

/-! When `cl_parse` stays inside its buffers. Fields and operations form one chain of
size-prefixed items; what each item makes the parser touch is a condition on the bytes of
the buffer as it was received. -/
namespace Citrusleaf
open Lib

/-- Where the items of a chain start, each after the size that leads the one before it. -/
def itemAt (buf : List UInt8) : Nat → Nat → Nat
  | start,0 => start
  | start,i + 1 => itemAt buf (start + 4 + wordAt buf start) i

theorem all_items_succ (buf : List UInt8) (inside : Nat → Prop) (start n : Nat) :
    (∀ i < n + 1, inside (itemAt buf start i)) ↔
      inside start ∧ ∀ i < n, inside (itemAt buf (start + 4 + wordAt buf start) i) := by
  constructor
  · intro all
    exact ⟨all 0 n.succ_pos,fun i below => all (i + 1) (Nat.succ_lt_succ below)⟩
  · rintro ⟨first,rest⟩ i below
    cases i with
    | zero => exact first
    | succ i => exact rest i (Nat.lt_of_succ_lt_succ below)

/-! ### The conditions -/

/-- A field: its size and type, the id of a transaction field, and the name a set field is
copied for. -/
def FieldInside (caller : ParseCaller) (buf : List UInt8) (mf : Nat) : Prop :=
  mf + 5 ≤ buf.length ∧
  (byteAt buf (mf + 4) = clMsgFieldTypeTrid → mf + 5 + 8 ≤ buf.length) ∧
  (byteAt buf (mf + 4) = clMsgFieldTypeSet → caller.setnameR = true →
    mf + 5 + clMsgFieldGetValueSz (wordAt buf mf) ≤ buf.length)

/-- An integer of up to eight bytes is read whole. One of more bytes is refused, unless its
size is negative as an `int`: then the first byte is read, and has to be positive. -/
def IntInside (buf : List UInt8) (p sz : Nat) : Prop :=
  (0 < sz → sz ≤ 8 → p + sz ≤ buf.length) ∧
  (2 ^ 31 ≤ sz → p < buf.length ∧ byteAt buf p < 0x80)

/-! The header of an operation as it was received. -/

def typeAt (buf : List UInt8) (op : Nat) : UInt32 := (byteAt buf (op + 5)).toUInt32

def nameSzAt (buf : List UInt8) (op : Nat) : Nat := (byteAt buf (op + 7)).toNat

def valueAt (buf : List UInt8) (op : Nat) : Nat := op + 8 + nameSzAt buf op

def valueSzAt (buf : List UInt8) (op : Nat) : Nat := valueSz (wordAt buf op) (nameSzAt buf op)

/-- The value of an operation, by its particle type. What is copied needs a block first. -/
structure ValueInside (malloc : Nat → Option UInt64) (buf : List UInt8) (op : Nat) : Prop where
  int : typeAt buf op = clInt → IntInside buf (valueAt buf op) (valueSzAt buf op)
  str : typeAt buf op = clStr → (malloc (valueSzAt buf op + 1)).isSome →
    valueAt buf op + valueSzAt buf op ≤ buf.length
  blob : isBlob (typeAt buf op) → (malloc (valueSzAt buf op)).isSome →
    valueAt buf op + valueSzAt buf op ≤ buf.length

/-- An operation copied into a new bin: a name of 33 bytes or more is skipped, one of 32
has no room for its NUL. -/
def FreshInside (malloc : Nat → Option UInt64) (buf : List UInt8) (op : Nat) : Prop :=
  op + 8 ≤ buf.length ∧ (nameSzAt buf op ≤ 32 →
    nameSzAt buf op < 32 ∧ valueAt buf op ≤ buf.length ∧ ValueInside malloc buf op)

/-- An operation looked up in the caller's bins, by as many bytes as its name has. -/
def SearchInside (malloc : Nat → Option UInt64) (names : List BinName) (buf : List UInt8) (op : Nat) : Prop :=
  op + 8 ≤ buf.length ∧ nameSzAt buf op ≤ 32 ∧ valueAt buf op ≤ buf.length ∧
    ((∃ name ∈ names, name.chars.take (nameSzAt buf op) = (buf.drop (op + 8)).take (nameSzAt buf op)) →
      ValueInside malloc buf op)

/-- Every operation stays inside, or the array or the buffer is too small for any. -/
def OpsInside (heap : Heap) (nOps : Nat) (values : Values) (buf : List UInt8) (start : Nat) : Prop :=
  start + 8 ≤ buf.length →
    if nOps > values.bins.length then
      (heap.malloc (values.itemSize * nOps)).isSome →
        ∀ i < nOps, FreshInside heap.malloc buf (itemAt buf start i)
    else ∀ i < nOps, SearchInside heap.malloc (values.bins.map ClBin.binName) buf (itemAt buf start i)

/-- What has to lie inside the buffer for a response with these counts. -/
def Contained (heap : Heap) (msg : ClMsg) (buf : List UInt8) (caller : ParseCaller) : Prop :=
  (msg.nFields ≠ 0 ∧ buf.length < 5) ∨
  ((∀ i < msg.nFields.toNat, FieldInside caller buf (itemAt buf 0 i)) ∧
    ∀ values, caller.values = some values →
      OpsInside heap msg.nOps.toNat values buf (itemAt buf 0 msg.nFields.toNat))

/-! ### Fields -/

theorem fieldSz_checked (reads : (readBytes buf mf 4).map leNat = some word) :
    Checked True (· = word) (fieldSz buf mf) := by
  rw [fieldSz,reads]
  exact .pure rfl

theorem fieldGetNext_checked (reads : (readBytes buf mf 4).map leNat = some word) :
    Checked True (· = mf + 4 + word) (clMsgFieldGetNext buf mf) :=
  (fieldSz_checked reads).map fun _ same => congrArg (mf + 4 + ·) same

theorem parseField_checked (caller : ParseCaller) (s : FieldState) (agree : Agree s.mf orig s.buf) :
    Checked (FieldInside caller orig s.mf)
      (fun t => t.mf = s.mf + 4 + wordAt orig s.mf ∧ Agree t.mf orig t.buf) (parseField caller s) := by
  have step : Checked (s.mf + 4 ≤ orig.length ∧ s.mf + 4 < orig.length ∧ True ∧
      ((byteAt orig (s.mf + 4) = clMsgFieldTypeTrid → s.mf + 5 + 8 ≤ orig.length ∧ True) ∧
        (¬byteAt orig (s.mf + 4) = clMsgFieldTypeTrid →
          ((byteAt orig (s.mf + 4) = clMsgFieldTypeSet ∧ caller.setnameR →
            True ∧ s.mf + 5 + clMsgFieldGetValueSz (wordAt orig s.mf) ≤ orig.length ∧ True) ∧
          (¬(byteAt orig (s.mf + 4) = clMsgFieldTypeSet ∧ caller.setnameR) → True)))))
      (fun t => t.mf = s.mf + 4 + wordAt orig s.mf ∧ Agree t.mf orig t.buf) (parseField caller s) := by
    refine agree.swapWord_checked.bind fun buf _ ⟨after,reads⟩ => ?_
    refine (after.readByte_checked (Nat.le_refl _)).bind fun type _ same => ?_
    subst same
    have later : Agree (s.mf + 4 + wordAt orig s.mf) orig buf := after.later (Nat.le_add_right _ _)
    refine (fieldGetNext_checked reads).bind fun next _ same => ?_
    subst same
    refine .ite (fun _ => ?_) fun _ => .ite (fun _ => ?_) fun _ => ?_
    · exact (after.readBytes_checked (by omega)).bind fun _ _ _ => .pure ⟨rfl,later⟩
    · refine (fieldSz_checked reads).bind fun sz _ same => ?_
      subst same
      exact (after.readBytes_checked (by omega)).bind fun _ _ _ => .pure ⟨rfl,later⟩
    · exact .pure ⟨rfl,later⟩
  refine step.congr ?_
  unfold FieldInside
  constructor
  · rintro ⟨_,inside,_,trid,set⟩
    refine ⟨inside,fun is => (trid is).1,fun is wanted => ?_⟩
    have other : ¬byteAt orig (s.mf + 4) = clMsgFieldTypeTrid := by rw [is]; decide
    exact ((set other).1 ⟨is,wanted⟩).2.1
  · rintro ⟨inside,trid,set⟩
    exact ⟨by omega,inside,trivial,fun is => ⟨trid is,trivial⟩,
      fun _ => ⟨fun is => ⟨trivial,set is.1 is.2,trivial⟩,fun _ => trivial⟩⟩

/-- The loop over fields, when its check lets it start. -/
theorem parseFields_checked (caller : ParseCaller) (n : Nat) (s : FieldState) (agree : Agree s.mf orig s.buf)
    (room : 5 ≤ orig.length) :
    Checked (∀ i < n, FieldInside caller orig (itemAt orig s.mf i))
      (fun out => out.1 = 0 ∧ out.2.mf = itemAt orig s.mf n ∧ Agree out.2.mf orig out.2.buf)
      (parseFields caller n s) := by
  induction n generalizing s with
  | zero => exact .gives nofun ⟨rfl,rfl,agree⟩
  | succ n ih =>
    rw [parseFields,if_neg (by rw [← agree.size]; omega)]
    have step : Checked (FieldInside caller orig s.mf ∧
        ∀ i < n, FieldInside caller orig (itemAt orig (s.mf + 4 + wordAt orig s.mf) i)) _
        ((parseField caller s).bind (parseFields caller n)) :=
      (parseField_checked caller s agree).bind fun t _ ⟨moved,same⟩ => moved ▸ ih t same
    exact step.congr (all_items_succ orig (FieldInside caller orig) s.mf n).symm

/-! ### Values -/

theorem signed_byte (b : UInt8) : b &&& 0x80 ≠ 0 ↔ ¬b < 0x80 := by
  have table : ∀ n : Fin 256, (UInt8.ofNat n.val &&& 0x80 ≠ 0 ↔ ¬UInt8.ofNat n.val < 0x80) := by
    decide +kernel
  simpa only [UInt8.ofNat_toNat] using table ⟨b.toNat,b.toNat_lt⟩

theorem opToValueInt_checked (agree : Agree q orig buf) (later : q ≤ p) (word : sz < 2 ^ 32) :
    Checked (IntInside orig p sz) (fun _ => True) (opToValueInt buf p (toInt sz)) := by
  have step : Checked ((8 < toInt sz → True) ∧ (¬8 < toInt sz →
      (toInt sz = 8 → p + 8 ≤ orig.length ∧ True) ∧ (¬toInt sz = 8 →
      (toInt sz = 0 → True) ∧ (¬toInt sz = 0 → p < orig.length ∧
      ((toInt sz = 1 ∧ byteAt orig p < 0x7f → True) ∧ (¬(toInt sz = 1 ∧ byteAt orig p < 0x7f) →
        (byteAt orig p &&& 0x80 ≠ 0 → (toInt sz < 0 → False) ∧
          (¬toInt sz < 0 → p + (toInt sz).toNat ≤ orig.length ∧ True)) ∧
        (¬byteAt orig p &&& 0x80 ≠ 0 → (toInt sz < 0 → True) ∧
          (¬toInt sz < 0 → p + (toInt sz).toNat ≤ orig.length ∧ True))))))))
      (fun _ => True) (opToValueInt buf p (toInt sz)) := by
    refine .ite (fun _ => .pure trivial) fun _ => .ite (fun _ => ?_) fun _ =>
      .ite (fun _ => .pure trivial) fun _ => ?_
    · exact (agree.readBytes_checked later).bind fun _ _ _ => .pure trivial
    · refine (agree.readByte_checked later).bind fun first _ same => ?_
      subst same
      refine .ite (fun _ => .pure trivial) fun _ => .ite (fun _ => .ite (fun _ => ?_) fun _ => ?_)
        fun _ => .ite (fun _ => .pure trivial) fun _ => ?_
      · exact .fails id
      · exact (agree.readBytes_checked later).bind fun _ _ _ => .pure trivial
      · exact (agree.readBytes_checked later).bind fun _ _ _ => .pure trivial
  refine step.congr ?_
  rw [signed_byte]
  unfold IntInside toInt
  split <;> grind

/-- An operation of the received buffer whose size was swapped, and whose header lies inside. -/
structure OpenOp (orig buf : List UInt8) (op : Nat) : Prop where
  header : op + 8 ≤ orig.length
  agree : Agree (op + 4) orig buf
  size : (readBytes buf op 4).map leNat = some (wordAt orig op)

theorem OpenOp.name_sz (opened : OpenOp orig buf op) :
    Checked True (· = nameSzAt orig op) (opNameSz buf op) := by
  have inside : op + 7 < orig.length := Nat.lt_of_lt_of_le (by omega) opened.header
  have read : Checked (op + 7 < orig.length) (· = byteAt orig (op + 7)) (readByte buf (op + 7)) :=
    opened.agree.readByte_checked (by omega)
  have value : Checked (op + 7 < orig.length) (· = nameSzAt orig op) (opNameSz buf op) :=
    read.map fun _ same => congrArg UInt8.toNat same
  exact value.congr (iff_true_intro inside)

theorem OpenOp.particle_type (opened : OpenOp orig buf op) :
    Checked True (· = byteAt orig (op + 5)) (opParticleType buf op) := by
  have inside : op + 5 < orig.length := Nat.lt_of_lt_of_le (by omega) opened.header
  exact (opened.agree.readByte_checked (by omega)).congr (iff_true_intro inside)

theorem OpenOp.value_p (opened : OpenOp orig buf op) :
    Checked True (· = valueAt orig op) (clMsgOpGetValueP buf op) :=
  opened.name_sz.map fun _ same => congrArg (op + 8 + ·) same

theorem OpenOp.op_sz (opened : OpenOp orig buf op) : Checked True (· = wordAt orig op) (opSz buf op) := by
  rw [opSz,opened.size]
  exact .pure rfl

theorem OpenOp.value_sz (opened : OpenOp orig buf op) :
    Checked True (· = valueSzAt orig op) (clMsgOpGetValueSz buf op) := by
  have step : Checked (True ∧ True ∧ True) (· = valueSzAt orig op) (clMsgOpGetValueSz buf op) := by
    refine opened.op_sz.bind fun size _ same => opened.name_sz.bind fun nameSz _ named => .pure ?_
    rw [same,named,valueSzAt]
  exact step.congr (by simp only [and_true])

theorem OpenOp.get_next (opened : OpenOp orig buf op) :
    Checked True (· = op + 4 + wordAt orig op) (clMsgOpGetNext buf op) :=
  opened.op_sz.map fun _ same => congrArg (op + 4 + ·) same

/-- Copying out a value, if there is a block for it. -/
theorem OpenOp.copy_checked (opened : OpenOp orig buf op) (failed : Int × ClObject)
    (copied : UInt64 → List UInt8 → Int × ClObject) (block : Option UInt64) (sz : Nat) :
    Checked (block.isSome → valueAt orig op + sz ≤ orig.length) (fun _ => True)
      (match block with
      | none => some failed
      | some address => do
        let bytes ← readBytes buf (← clMsgOpGetValueP buf op) sz
        return copied address bytes) := by
  cases block with
  | none => exact .gives nofun trivial
  | some address =>
    have step : Checked (True ∧ valueAt orig op + sz ≤ orig.length ∧ True) (fun _ => True) (do
        let bytes ← readBytes buf (← clMsgOpGetValueP buf op) sz
        return copied address bytes) := by
      refine opened.value_p.bind fun p _ same => ?_
      subst same
      exact (opened.agree.readBytes_checked (by unfold valueAt; omega)).bind fun _ _ _ => .pure trivial
    exact step.congr (by simp)

theorem valueSz_lt (opSz nameSz : Nat) : valueSz opSz nameSz < 2 ^ 32 := Nat.mod_lt _ (by decide)

theorem setObject_checked (malloc : Nat → Option UInt64) (obj : ClObject) (opened : OpenOp orig buf op) :
    Checked (ValueInside malloc orig op) (fun _ => True) (setObject malloc buf op obj) := by
  have step : Checked (True ∧ (typeAt orig op = clNull → True) ∧ (¬typeAt orig op = clNull →
      (typeAt orig op = clInt → True ∧ True ∧ IntInside orig (valueAt orig op) (valueSzAt orig op) ∧ True) ∧
      (¬typeAt orig op = clInt →
      (typeAt orig op = clStr → True ∧ ((malloc (valueSzAt orig op + 1)).isSome →
        valueAt orig op + valueSzAt orig op ≤ orig.length)) ∧
      (¬typeAt orig op = clStr →
      (isBlob (typeAt orig op) → True ∧ ((malloc (valueSzAt orig op)).isSome →
        valueAt orig op + valueSzAt orig op ≤ orig.length)) ∧
      (¬isBlob (typeAt orig op) → True))))) (fun _ => True) (setObject malloc buf op obj) := by
    refine opened.particle_type.bind fun type _ same => ?_
    subst same
    refine .ite (fun _ => .pure trivial) fun _ => .ite (fun _ => ?_) fun _ => .ite (fun _ => ?_) fun _ =>
      .ite (fun _ => ?_) fun _ => .pure trivial
    · refine opened.value_p.bind fun p _ same => ?_
      subst same
      refine opened.value_sz.bind fun sz _ same => ?_
      subst same
      exact (opToValueInt_checked opened.agree (by unfold valueAt; omega) (valueSz_lt _ _)).bind
        fun _ _ _ => .pure trivial
    · refine opened.value_sz.bind fun sz _ same => ?_
      subst same
      exact opened.copy_checked _ _ _ _
    · refine opened.value_sz.bind fun sz _ same => ?_
      subst same
      exact opened.copy_checked _ _ _ _
  have labels : clInt ≠ clNull ∧ clStr ≠ clNull ∧ clStr ≠ clInt ∧ isBlob clNull = false ∧
      isBlob clInt = false ∧ isBlob clStr = false := by decide
  refine step.congr ⟨fun code => ⟨?_,?_,?_⟩,fun inside => ?_⟩
  · grind
  · grind
  · grind
  · have ⟨int,str,blob⟩ := inside
    grind

theorem clSetValueParticular_checked (malloc : Nat → Option UInt64) (value : ClBin)
    (opened : OpenOp orig buf op) :
    Checked (nameSzAt orig op ≤ 32 → nameSzAt orig op < 32 ∧ valueAt orig op ≤ orig.length ∧
      ValueInside malloc orig op) (fun _ => True) (clSetValueParticular malloc buf op value) := by
  have step : Checked (True ∧ (nameSzAt orig op > 32 → True) ∧ (¬nameSzAt orig op > 32 →
      op + 8 + nameSzAt orig op ≤ orig.length ∧ nameSzAt orig op < 32 ∧ ValueInside malloc orig op ∧ True))
      (fun _ => True) (clSetValueParticular malloc buf op value) := by
    refine opened.name_sz.bind fun nameSz _ same => ?_
    subst same
    refine .ite (fun _ => .pure trivial) fun _ => ?_
    refine (opened.agree.readBytes_checked (by omega)).bind fun name inside same => ?_
    have size : name.length = nameSzAt orig op := by
      rw [same]
      exact List.length_take_of_le (by rw [List.length_drop]; omega)
    have set : Checked (nameSzAt orig op < 32) (fun _ => True) (value.binName.set name) := by
      have fits := BinName.set_isSome value.binName name
      cases done : value.binName.set name with
      | none => exact .fails fun below => by simp [done,size,below] at fits
      | some _ => exact .gives (size ▸ fits.mp (by rw [done]; rfl)) trivial
    exact set.bind fun _ _ _ => (setObject_checked malloc _ opened).bind fun _ _ _ => .pure trivial
  refine step.congr ?_
  unfold valueAt
  grind

/-- The names stay as they are, so each lookup sees those the caller passed. -/
theorem setValueSearch_checked (malloc : Nat → Option UInt64) (values : List ClBin)
    (opened : OpenOp orig buf op) :
    Checked (values ≠ [] → nameSzAt orig op ≤ 32 ∧ valueAt orig op ≤ orig.length ∧
      ((∃ name ∈ values.map ClBin.binName,
        name.chars.take (nameSzAt orig op) = (orig.drop (op + 8)).take (nameSzAt orig op)) →
        ValueInside malloc orig op))
      (fun out => out.2.map ClBin.binName = values.map ClBin.binName) (setValueSearch malloc buf op values) := by
  induction values with
  | nil => exact .gives (fun some => absurd rfl some) rfl
  | cons value values ih =>
    have step : Checked (True ∧ 0 + nameSzAt orig op ≤ value.binName.chars.length ∧
        op + 8 + nameSzAt orig op ≤ orig.length ∧
        ((value.binName.chars.drop 0).take (nameSzAt orig op) = (orig.drop (op + 8)).take (nameSzAt orig op) →
          ValueInside malloc orig op ∧ True) ∧
        (¬(value.binName.chars.drop 0).take (nameSzAt orig op) = (orig.drop (op + 8)).take (nameSzAt orig op) →
          (values ≠ [] → nameSzAt orig op ≤ 32 ∧ valueAt orig op ≤ orig.length ∧
            ((∃ name ∈ values.map ClBin.binName,
              name.chars.take (nameSzAt orig op) = (orig.drop (op + 8)).take (nameSzAt orig op)) →
              ValueInside malloc orig op)) ∧ True))
        (fun out => out.2.map ClBin.binName = (value :: values).map ClBin.binName)
        (setValueSearch malloc buf op (value :: values)) := by
      refine opened.name_sz.bind fun nameSz _ same => ?_
      subst same
      refine ((Agree.refl 0 _).readBytes_checked (Nat.le_refl 0)).bind fun binName _ same => ?_
      subst same
      refine (opened.agree.readBytes_checked (by omega)).bind fun name _ same => ?_
      subst same
      refine .ite (fun _ => ?_) fun _ => ?_
      · exact (setObject_checked malloc _ opened).bind fun _ _ _ => .pure rfl
      · exact ih.bind fun out _ same => .pure (congrArg (value.binName :: ·) same)
    refine step.congr ?_
    rw [value.binName.size,List.drop_zero]
    unfold valueAt
    simp only [List.map_cons,List.mem_cons,exists_eq_or_imp,ne_eq,reduceCtorEq,not_false_eq_true]
    by_cases empty : values = []
    · subst empty
      simp only [List.map_nil,List.not_mem_nil]
      grind
    · grind

/-! ### Operations -/

/-- After the size is swapped, the first thing read is the size of the name. -/
theorem swapOp_checked {f : List UInt8 → Option β} (agree : Agree op orig buf)
    (short : ∀ after, opNameSz after op = none → f after = none)
    (opened : ∀ after, OpenOp orig after op → Checked condition post (f after)) :
    Checked (op + 8 ≤ orig.length ∧ condition) post ((clMsgSwapOp buf op).bind f) := by
  have swapped : Checked (op + 4 ≤ orig.length ∧ op + 8 ≤ orig.length ∧ condition) post
      ((clMsgSwapOp buf op).bind f) := by
    refine agree.swapWord_checked.bind fun after _ ⟨same,reads⟩ => ?_
    by_cases header : op + 8 ≤ orig.length
    · exact (opened after ⟨header,same,reads⟩).congr (and_iff_right header).symm
    · have outside : opNameSz after op = none := by
        rw [opNameSz,readByte,List.getElem?_eq_none (by rw [← same.size]; omega)]
        rfl
      rw [short after outside]
      exact .fails fun both => header both.1
  exact swapped.congr ⟨And.right,fun both => ⟨by omega,both⟩⟩

theorem parseOpsFresh_checked (malloc : Nat → Option UInt64) (start : Nat) (values : List ClBin)
    (agree : Agree op orig buf) (room : start + 8 ≤ orig.length) :
    Checked (∀ i < values.length, FreshInside malloc orig (itemAt orig op i)) (fun _ => True)
      (parseOpsFresh malloc start values buf op) := by
  induction values generalizing op buf with
  | nil => exact .gives (fun _ below => absurd below (Nat.not_lt_zero _)) trivial
  | cons value values ih =>
    rw [parseOpsFresh,if_neg (by rw [← agree.size]; omega)]
    have step : Checked (op + 8 ≤ orig.length ∧ (nameSzAt orig op ≤ 32 → nameSzAt orig op < 32 ∧
        valueAt orig op ≤ orig.length ∧ ValueInside malloc orig op) ∧ True ∧
        (∀ i < values.length, FreshInside malloc orig (itemAt orig (op + 4 + wordAt orig op) i)) ∧ True)
        (fun _ => True) ((clMsgSwapOp buf op).bind fun buf => do
          let value ← clSetValueParticular malloc buf op value
          let out ← parseOpsFresh malloc start values buf (← clMsgOpGetNext buf op)
          return (out.1,value :: out.2)) := by
      refine swapOp_checked agree (fun after outside => by simp [clSetValueParticular,outside])
        fun after opened => ?_
      refine (clSetValueParticular_checked malloc value opened).bind fun value _ _ => ?_
      refine opened.get_next.bind fun next _ same => ?_
      subst same
      exact (ih (opened.agree.later (Nat.le_add_right _ _))).bind fun _ _ _ => .pure trivial
    refine step.congr ?_
    rw [List.length_cons,all_items_succ]
    simp only [true_and,and_true,FreshInside,and_assoc]

theorem parseOpsSearch_checked (malloc : Nat → Option UInt64) (start n : Nat) (values : List ClBin)
    (names : values.map ClBin.binName = known) (some : n ≠ 0 → values ≠ [])
    (agree : Agree op orig buf) (room : start + 8 ≤ orig.length) :
    Checked (∀ i < n, SearchInside malloc known orig (itemAt orig op i)) (fun _ => True)
      (parseOpsSearch malloc start n values buf op) := by
  induction n generalizing op buf values with
  | zero => exact .gives (fun _ below => absurd below (Nat.not_lt_zero _)) trivial
  | succ n ih =>
    have filled : values ≠ [] := some n.succ_ne_zero
    rw [parseOpsSearch,if_neg (by rw [← agree.size]; omega)]
    have step : Checked (op + 8 ≤ orig.length ∧ (values ≠ [] → nameSzAt orig op ≤ 32 ∧
        valueAt orig op ≤ orig.length ∧ ((∃ name ∈ values.map ClBin.binName,
          name.chars.take (nameSzAt orig op) = (orig.drop (op + 8)).take (nameSzAt orig op)) →
          ValueInside malloc orig op)) ∧ True ∧
        (∀ i < n, SearchInside malloc known orig (itemAt orig (op + 4 + wordAt orig op) i)))
        (fun _ => True) ((clMsgSwapOp buf op).bind fun buf => do
          let out ← setValueSearch malloc buf op values
          parseOpsSearch malloc start n out.2 buf (← clMsgOpGetNext buf op)) := by
      refine swapOp_checked agree (fun after outside => ?_) fun after opened => ?_
      · cases values with
        | nil => exact absurd rfl filled
        | cons value values => simp [setValueSearch,outside]
      · refine (setValueSearch_checked malloc values opened).bind fun out _ kept => ?_
        refine opened.get_next.bind fun next _ same => ?_
        subst same
        refine ih out.2 (kept.trans names) (fun _ empty => filled ?_) (opened.agree.later (Nat.le_add_right _ _))
        rw [empty] at kept
        exact List.map_eq_nil_iff.mp kept.symm
    refine step.congr ?_
    rw [all_items_succ,names]
    simp only [SearchInside,and_assoc,true_and,filled,ne_eq,not_false_eq_true,forall_const]

theorem parseOps_checked (heap : Heap) (nOps : Nat) (values : Values) (agree : Agree start orig buf) :
    Checked (OpsInside heap nOps values orig start) (fun _ => True) (parseOps heap nOps values buf start) := by
  by_cases room : start + 8 ≤ orig.length
  · have step : Checked ((nOps > values.bins.length → (heap.malloc (values.itemSize * nOps)).isSome →
        ∀ i < nOps, FreshInside heap.malloc orig (itemAt orig start i)) ∧
        (¬nOps > values.bins.length → (∀ i < nOps,
          SearchInside heap.malloc (values.bins.map ClBin.binName) orig (itemAt orig start i)) ∧ True))
        (fun _ => True) (parseOps heap nOps values buf start) := by
      refine .ite (fun _ => ?_) fun enough => ?_
      · cases heap.malloc (values.itemSize * nOps) with
        | none => exact .gives nofun trivial
        | some address =>
          have fresh := parseOpsFresh_checked heap.malloc start ((List.range nOps).map heap.garbage) agree room
          rw [List.length_map,List.length_range] at fresh
          refine (fresh.bind fun _ _ _ => .pure trivial).congr (?_ : _ ∧ True ↔ _)
          simp
      · refine (parseOpsSearch_checked heap.malloc start nOps values.bins rfl ?_ agree room).bind
          fun _ _ _ => .pure trivial
        rintro some empty
        rw [empty] at enough
        exact enough (Nat.pos_of_ne_zero some)
    refine step.congr ?_
    unfold OpsInside
    split <;> simp [*]
  · -- the check returns -1 before the first operation
    have refused : ∃ out, parseOps heap nOps values buf start = some out := by
      have size := agree.size
      unfold parseOps
      split
      · cases heap.malloc (values.itemSize * nOps) with
        | none => exact ⟨_,rfl⟩
        | some address =>
          cases fresh : (List.range nOps).map heap.garbage with
          | nil => exact ⟨_,rfl⟩
          | cons value values =>
            dsimp only
            rw [parseOpsFresh,if_pos (by omega)]
            exact ⟨_,rfl⟩
      · cases nOps with
        | zero => exact ⟨_,rfl⟩
        | succ n =>
          rw [parseOpsSearch,if_pos (by omega)]
          exact ⟨_,rfl⟩
    obtain ⟨out,given⟩ := refused
    rw [given]
    exact .gives (fun inside => absurd inside room) trivial

theorem parseFields_short (caller : ParseCaller) (s : FieldState) (short : s.buf.length < 5) (some : n ≠ 0) :
    parseFields caller n s = Option.some (-1,s) := by
  cases n with
  | zero => exact absurd rfl some
  | succ n => rw [parseFields,if_pos short]

/-- The rest of `cl_parse`, from the result of the loop over fields. -/
theorem afterFields_checked (heap : Heap) (nOps : Nat) (caller : ParseCaller) (s : FieldState)
    (agree : Agree s.mf orig s.buf) :
    Checked (∀ values, caller.values = some values → OpsInside heap nOps values orig s.mf) (fun _ => True)
      (match caller.values with
      | none => some (⟨0,none,s.trid,s.setname⟩ : Parsed)
      | some values => do
        let (rv,values) ← parseOps heap nOps values s.buf s.mf
        return ⟨rv,some values,s.trid,s.setname⟩) := by
  cases caller.values with
  | none => exact .gives nofun trivial
  | some values =>
    refine ((parseOps_checked heap nOps values agree).bind fun _ _ _ => .pure trivial).congr (?_ : _ ∧ True ↔ _)
    simp

theorem clParse_checked (heap : Heap) (msg : ClMsg) (buf : List UInt8) (caller : ParseCaller) :
    Checked (Contained heap msg buf caller) (fun _ => True) (clParse heap msg buf caller) := by
  have counted : msg.nFields ≠ 0 ↔ msg.nFields.toNat ≠ 0 := by
    rw [ne_eq,ne_eq,← UInt16.toNat_inj]
    rfl
  by_cases refused : msg.nFields ≠ 0 ∧ buf.length < 5
  · have fields := parseFields_short caller ⟨buf,0,none,none⟩ refused.2 (counted.mp refused.1)
    rw [clParse,fields]
    exact .gives (.inl refused) trivial
  · have fields : Checked (∀ i < msg.nFields.toNat, FieldInside caller buf (itemAt buf 0 i))
        (fun out => out.1 = 0 ∧ out.2.mf = itemAt buf 0 msg.nFields.toNat ∧ Agree out.2.mf buf out.2.buf)
        (parseFields caller msg.nFields.toNat ⟨buf,0,none,none⟩) := by
      by_cases empty : msg.nFields.toNat = 0
      · rw [empty]
        exact .gives nofun ⟨rfl,rfl,.refl 0 buf⟩
      · refine parseFields_checked caller _ ⟨buf,0,none,none⟩ (Agree.refl 0 buf) ?_
        exact Nat.le_of_not_lt fun short => refused ⟨counted.mpr empty,short⟩
    have step : Checked ((∀ i < msg.nFields.toNat, FieldInside caller buf (itemAt buf 0 i)) ∧
        ∀ values, caller.values = some values →
          OpsInside heap msg.nOps.toNat values buf (itemAt buf 0 msg.nFields.toNat))
        (fun _ => True) (clParse heap msg buf caller) := by
      refine fields.bind fun out _ ⟨rv,at_,agree⟩ => ?_
      obtain ⟨_,s⟩ := out
      subst rv
      rw [← at_]
      exact afterFields_checked heap _ caller s agree
    exact step.congr ⟨.inr,fun inside => inside.resolve_left refused⟩

/-- A response is parsed inside its buffers exactly when every field and operation it
counts lies inside, up to the first check that turns the response away. -/
theorem response_contained (heap : Heap) (msg : ClMsg) (buf : List UInt8) (caller : ParseCaller) :
    (∃ parsed, clParse heap msg buf caller = some parsed) ↔ Contained heap msg buf caller := by
  rw [← (clParse_checked heap msg buf caller).isSome_iff,Option.isSome_iff_exists]

/-! ### Two responses that are not -/

/-- Memory whose allocations succeed. -/
def sampleHeap : Heap := ⟨fun _ => some 4096,fun _ => ⟨⟨List.replicate 32 0,rfl⟩,⟨clNull,0,.i64 0⟩⟩⟩

def sampleMsg (nOps : UInt16) : ClMsg := ⟨22,0,0,0,0,0,0,0,0,0,nOps⟩

/-- The caller of a read of all bins. -/
def sampleCaller : ParseCaller := ⟨some ⟨false,[]⟩,false,false⟩

/-- One operation without a name or a value. -/
def emptyOp : List UInt8 := [0,0,0,4,1,0,0,0]

/-- The second of two operations is read behind a buffer that holds one: the check passes
again, since it looks at the start of the operations. -/
theorem second_op_outside :
    ¬∀ heap msg buf caller, ∃ parsed, clParse heap msg buf caller = some parsed := by
  intro every
  obtain ⟨parsed,returned⟩ := every sampleHeap (sampleMsg 2) emptyOp sampleCaller
  have left : (clParse sampleHeap (sampleMsg 2) emptyOp sampleCaller).isNone = true := by decide
  rw [returned] at left
  cases left

/-- A name of 32 bytes puts its NUL behind the array. -/
example : (clParse sampleHeap (sampleMsg 1) ([0,0,0,36,1,0,0,32] ++ List.replicate 32 97)
    sampleCaller).isNone = true := by decide

end Citrusleaf
