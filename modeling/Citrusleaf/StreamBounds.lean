import Citrusleaf.Lib.Runs
import Citrusleaf.Stream

/-! When the read loops stay inside their buffers. Every size is read from the stream, so what
a message makes them touch is a condition on its bytes as they were received; the loops are
inside exactly when every message they come to is. -/
namespace Citrusleaf
open Lib

/-! ### The conditions -/

/-- The big-endian half word at a position. -/
def halfAt (mem : List UInt8) (p : Nat) : Nat := beNat ((mem.drop p).take 2)

/-- The header of a message as it was received. -/
def msgAt (buf : List UInt8) (p : Nat) : ClMsg :=
  ⟨byteAt buf p,byteAt buf (p + 1),byteAt buf (p + 2),byteAt buf (p + 3),byteAt buf (p + 4),byteAt buf (p + 5),
    (wordAt buf (p + 6)).toUInt32,(wordAt buf (p + 10)).toUInt32,(wordAt buf (p + 14)).toUInt32,
    (halfAt buf (p + 18)).toUInt16,(halfAt buf (p + 20)).toUInt16⟩

/-- Where the fields of a message end and its operations start. -/
def opsAt (buf : List UInt8) (p : Nat) : Nat := itemAt buf (p + 22) (msgAt buf p).nFields.toNat

def messageEnd (buf : List UInt8) (p : Nat) : Nat := itemAt buf (opsAt buf p) (msgAt buf p).nOps.toNat

/-- A namespace has to fit into its 33 bytes, and a set into the block allocated for it, which is
empty when the size of the field is zero. -/
structure MessageFieldInside (malloc : Nat → Option UInt64) (buf : List UInt8) (mf : Nat) : Prop where
  header : mf + 5 ≤ buf.length
  ns : byteAt buf (mf + 4) = clMsgFieldTypeNamespace →
    clMsgFieldGetValueSz (wordAt buf mf) ≤ 32 ∧ mf + 5 + clMsgFieldGetValueSz (wordAt buf mf) ≤ buf.length
  set : byteAt buf (mf + 4) = clMsgFieldTypeSet →
    0 < wordAt buf mf ∧ (malloc (wordAt buf mf)).isSome ∧
      mf + 5 + clMsgFieldGetValueSz (wordAt buf mf) ≤ buf.length

/-- An operation copied into an entry of the bin array. A name of more than 32 bytes is skipped. -/
def EntryInside (malloc : Nat → Option UInt64) (buf : List UInt8) (op : Nat) : Prop :=
  op + 8 ≤ buf.length ∧ (nameSzAt buf op ≤ 32 → valueAt buf op ≤ buf.length ∧ ValueInside malloc buf op)

/-- An array for so many bins. -/
def BinsGiven (heap : Heap) (nOps : Nat) : Prop := stackBins < nOps → (heap.malloc (64 * nOps)).isSome

/-- A message the loop does not return -1 for. -/
def MessagePasses (heap : Heap) (buf : List UInt8) (p : Nat) : Prop :=
  (msgAt buf p).headerSz = 22 ∧ BinsGiven heap (msgAt buf p).nOps.toNat

/-- The header, then the fields if its size is right, then the operations if there are bins. -/
structure MessageInside (heap : Heap) (buf : List UInt8) (p : Nat) : Prop where
  header : p + 22 ≤ buf.length
  fields : (msgAt buf p).headerSz = 22 →
    ∀ i < (msgAt buf p).nFields.toNat, MessageFieldInside heap.malloc buf (itemAt buf (p + 22) i)
  ops : MessagePasses heap buf p →
    ∀ i < (msgAt buf p).nOps.toNat, EntryInside heap.malloc buf (itemAt buf (opsAt buf p) i)

/-! ### Headers -/

theorem halfAt_lt (mem : List UInt8) (p : Nat) : halfAt mem p < 2 ^ 16 := by
  have bound := beNat_lt ((mem.drop p).take 2)
  have short : ((mem.drop p).take 2).length ≤ 2 := List.length_take_le 2 _
  exact Nat.lt_of_lt_of_le bound (Nat.pow_le_pow_right (by omega) short)

/-- A header inside the buffer is the one its bytes say. -/
theorem wire_msgAt {buf : List UInt8} (inside : p + 22 ≤ buf.length) :
    buf.drop p = (msgAt buf p).wire ++ buf.drop (p + 22) := by
  have number (i n : Nat) (within : i + n ≤ 22) : buf.drop (p + i) =
      beBytes n (beNat ((buf.drop (p + i)).take n)) ++ buf.drop (p + (i + n)) := by
    have rest : buf.drop (p + (i + n)) = (buf.drop (p + i)).drop n := by rw [List.drop_drop,Nat.add_assoc]
    rw [beBytes_beNat (by omega),rest,List.take_append_drop]
  have word (i : Nat) (within : i + 4 ≤ 22) : buf.drop (p + i) =
      beBytes 4 ((wordAt buf (p + i)).toUInt32).toNat ++ buf.drop (p + (i + 4)) := by
    have small : (wordAt buf (p + i)).toUInt32.toNat = wordAt buf (p + i) :=
      UInt32.toNat_ofNat_of_lt' (wordAt_lt buf _)
    rw [small]
    exact number i 4 within
  have half (i : Nat) (within : i + 2 ≤ 22) : buf.drop (p + i) =
      beBytes 2 ((halfAt buf (p + i)).toUInt16).toNat ++ buf.drop (p + (i + 2)) := by
    have small : (halfAt buf (p + i)).toUInt16.toNat = halfAt buf (p + i) :=
      UInt16.toNat_ofNat_of_lt' (halfAt_lt buf _)
    rw [small]
    exact number i 2 within
  have byte (i : Nat) (within : i < 22) : buf.drop (p + i) = byteAt buf (p + i) :: buf.drop (p + (i + 1)) :=
    drop_byteAt (by omega)
  have head : buf.drop p = [byteAt buf p,byteAt buf (p + 1),byteAt buf (p + 2),byteAt buf (p + 3),
      byteAt buf (p + 4),byteAt buf (p + 5)] ++ buf.drop (p + 6) := by
    rw [drop_byteAt (by omega : p < buf.length),byte 1 (by omega),byte 2 (by omega),byte 3 (by omega),
      byte 4 (by omega),byte 5 (by omega)]
    rfl
  rw [head,word 6 (by omega),word 10 (by omega),word 14 (by omega),half 18 (by omega),half 20 (by omega)]
  simp only [ClMsg.wire,msgAt,List.append_assoc]

/-- The header is swapped where it lies. -/
theorem header_inside (agree : Agree p orig buf) (inside : p + 22 ≤ orig.length) :
    ∃ after, clMsgSwapHeader buf p = some after ∧ readMsg after p = some (msgAt orig p) ∧
      Agree (p + 22) orig after := by
  have start : p = (buf.take p).length := (List.length_take_of_le (by rw [← agree.size]; omega)).symm
  have parts : buf = buf.take p ++ ((msgAt orig p).wire ++ orig.drop (p + 22)) := by
    rw [← wire_msgAt inside,agree.rest,List.take_append_drop]
  have swapped := clMsgSwapHeader_wire (msgAt orig p) (buf.take p) (orig.drop (p + 22)) start
  rw [← parts] at swapped
  refine ⟨_,swapped,readMsg_bytes (msgAt orig p) _ _ start,?_,?_⟩
  · have size : orig.length = _ := agree.size.trans (congrArg List.length parts)
    rw [size,List.length_append,List.length_append,List.length_append,List.length_append,ClMsg.wire_length]
    simp [ClMsg.bytes]
  · rw [← List.append_assoc,List.drop_left']
    rw [List.length_append,← start]
    simp [ClMsg.bytes]

theorem header_outside (agree : Agree p orig buf) (outside : ¬p + 22 ≤ orig.length) : clMsgSwapHeader buf p = none := by
  have length {k n : Nat} {mem after : List UInt8} (swapped : swapBytes mem k n = some after) :
      after.length = mem.length := by
    unfold swapBytes at swapped
    obtain ⟨bytes,_,written⟩ := Option.bind_eq_some_iff.mp swapped
    exact (writeBytes_agree written).size.symm
  rw [Option.eq_none_iff_forall_ne_some]
  intro after swapped
  unfold clMsgSwapHeader at swapped
  obtain ⟨a,first,swapped⟩ := Option.bind_eq_some_iff.mp swapped
  obtain ⟨b,second,swapped⟩ := Option.bind_eq_some_iff.mp swapped
  obtain ⟨c,third,swapped⟩ := Option.bind_eq_some_iff.mp swapped
  obtain ⟨d,fourth,swapped⟩ := Option.bind_eq_some_iff.mp swapped
  unfold swapBytes at swapped
  obtain ⟨bytes,read,_⟩ := Option.bind_eq_some_iff.mp swapped
  unfold readBytes at read
  split at read
  · rw [length fourth,length third,length second,length first,← agree.size] at *
    omega
  · cases read

/-! ### Fields -/

theorem copyString_checked (block str : List UInt8) :
    Checked (str.length < block.length) (fun out => out.length = block.length) (copyString block str) := by
  apply (writeBytes_checked block 0 (str ++ [0])).congr
  rw [List.length_append,List.length_singleton,Nat.zero_add]
  exact Nat.lt_iff_add_one_le.symm

theorem fieldValueSz_succ (word : n < 2 ^ 32) : (clMsgFieldGetValueSz n + 1) % 2 ^ 32 = n := by
  unfold clMsgFieldGetValueSz
  omega

theorem fieldValueSz_lt (word : n < 2 ^ 32) : clMsgFieldGetValueSz n < n ↔ 0 < n := by
  unfold clMsgFieldGetValueSz
  omega

/-- The block for a set has the size its field says, its type byte making room for the NUL. -/
theorem setBlock_checked (malloc : Nat → Option UInt64) (word : n < 2 ^ 32) :
    Checked ((malloc n).isSome) (fun block => block.length = n) (setBlock malloc (clMsgFieldGetValueSz n)) := by
  unfold setBlock
  rw [fieldValueSz_succ word]
  cases malloc n with
  | none => exact .fails nofun
  | some address => exact .gives rfl List.length_replicate

theorem readMessageField_checked (malloc : Nat → Option UInt64) (s : MessageFields) (agree : Agree s.mf orig s.buf)
    (array : s.nsRet.length = 33) :
    Checked (MessageFieldInside malloc orig s.mf)
      (fun t => t.mf = s.mf + 4 + wordAt orig s.mf ∧ Agree t.mf orig t.buf ∧ t.nsRet.length = 33)
      (readMessageField malloc s) := by
  have word := wordAt_lt orig s.mf
  have valueSz (inside : s.mf + 5 + clMsgFieldGetValueSz (wordAt orig s.mf) ≤ orig.length) :
      ((orig.drop (s.mf + 5)).take (clMsgFieldGetValueSz (wordAt orig s.mf))).length =
        clMsgFieldGetValueSz (wordAt orig s.mf) :=
    List.length_take_of_le (by rw [List.length_drop]; omega)
  have step : Checked (s.mf + 4 ≤ orig.length ∧ s.mf + 4 < orig.length ∧ True ∧
      ((byteAt orig (s.mf + 4) = clMsgFieldTypeDigestRipe → True) ∧
        (¬byteAt orig (s.mf + 4) = clMsgFieldTypeDigestRipe →
          (byteAt orig (s.mf + 4) = clMsgFieldTypeNamespace →
            True ∧ s.mf + 5 + clMsgFieldGetValueSz (wordAt orig s.mf) ≤ orig.length ∧
              clMsgFieldGetValueSz (wordAt orig s.mf) < 33 ∧ True) ∧
          (¬byteAt orig (s.mf + 4) = clMsgFieldTypeNamespace →
            (byteAt orig (s.mf + 4) = clMsgFieldTypeSet →
              True ∧ s.mf + 5 + clMsgFieldGetValueSz (wordAt orig s.mf) ≤ orig.length ∧
              (malloc (wordAt orig s.mf)).isSome ∧ clMsgFieldGetValueSz (wordAt orig s.mf) < wordAt orig s.mf ∧
              True) ∧
            (¬byteAt orig (s.mf + 4) = clMsgFieldTypeSet → True)))))
      (fun t => t.mf = s.mf + 4 + wordAt orig s.mf ∧ Agree t.mf orig t.buf ∧ t.nsRet.length = 33)
      (readMessageField malloc s) := by
    refine agree.swapWord_checked.bind fun buf _ ⟨after,reads⟩ => ?_
    refine (after.readByte_checked (Nat.le_refl _)).bind fun type _ same => ?_
    subst same
    have later : Agree (s.mf + 4 + wordAt orig s.mf) orig buf := after.later (Nat.le_add_right _ _)
    refine (fieldGetNext_checked reads).bind fun next _ same => ?_
    subst same
    refine .ite (fun _ => .pure ⟨rfl,later,array⟩) fun _ => .ite (fun _ => ?_) fun _ => .ite (fun _ => ?_) fun _ => ?_
    · refine (fieldSz_checked reads).bind fun sz _ same => ?_
      subst same
      refine (after.readBytes_checked (by omega)).bind fun ns inside same => ?_
      have size : ns.length = clMsgFieldGetValueSz (wordAt orig s.mf) := by rw [same,valueSz inside]
      have copied := copyString_checked s.nsRet ns
      rw [size,array] at copied
      exact copied.bind fun _ _ kept => .pure ⟨rfl,later,kept⟩
    · refine (fieldSz_checked reads).bind fun sz _ same => ?_
      subst same
      refine (after.readBytes_checked (by omega)).bind fun set inside same => ?_
      have size : set.length = clMsgFieldGetValueSz (wordAt orig s.mf) := by rw [same,valueSz inside]
      refine (setBlock_checked malloc word).bind fun block _ given => ?_
      have copied := copyString_checked block set
      rw [size,given] at copied
      exact copied.bind fun _ _ _ => .pure ⟨rfl,later,array⟩
    · exact .pure ⟨rfl,later,array⟩
  refine step.congr ?_
  have types : clMsgFieldTypeNamespace ≠ clMsgFieldTypeDigestRipe ∧ clMsgFieldTypeSet ≠ clMsgFieldTypeDigestRipe ∧
      clMsgFieldTypeSet ≠ clMsgFieldTypeNamespace := by decide
  rw [fieldValueSz_lt word]
  constructor
  · rintro ⟨_,inside,_,_,other⟩
    refine ⟨inside,fun ns => ?_,fun set => ?_⟩
    · obtain ⟨_,within,fits,_⟩ := (other (ns ▸ types.1)).1 ns
      exact ⟨Nat.le_of_lt_succ fits,within⟩
    · obtain ⟨_,within,given,positive,_⟩ := ((other (set ▸ types.2.1)).2 (set ▸ types.2.2)).1 set
      exact ⟨positive,given,within⟩
  · rintro ⟨inside,ns,set⟩
    refine ⟨Nat.le_of_lt inside,inside,trivial,fun _ => trivial,fun _ => ⟨fun is => ?_,fun _ => ⟨fun is => ?_,fun _ => trivial⟩⟩⟩
    · obtain ⟨fits,within⟩ := ns is
      exact ⟨trivial,within,Nat.lt_succ_of_le fits,trivial⟩
    · obtain ⟨positive,given,within⟩ := set is
      exact ⟨trivial,within,given,positive,trivial⟩

theorem readMessageFields_checked (malloc : Nat → Option UInt64) (n : Nat) (s : MessageFields)
    (agree : Agree s.mf orig s.buf) (array : s.nsRet.length = 33) :
    Checked (∀ i < n, MessageFieldInside malloc orig (itemAt orig s.mf i))
      (fun t => t.mf = itemAt orig s.mf n ∧ Agree t.mf orig t.buf) (readMessageFields malloc n s) := by
  induction n generalizing s with
  | zero => exact .gives nofun ⟨rfl,agree⟩
  | succ n ih =>
    have step : Checked (MessageFieldInside malloc orig s.mf ∧
        ∀ i < n, MessageFieldInside malloc orig (itemAt orig (s.mf + 4 + wordAt orig s.mf) i)) _
        ((readMessageField malloc s).bind (readMessageFields malloc n)) :=
      (readMessageField_checked malloc s agree array).bind fun t _ ⟨moved,same,kept⟩ => moved ▸ ih t same kept
    exact step.congr (all_items_succ orig (MessageFieldInside malloc orig) s.mf n).symm

/-! ### Operations -/

theorem clSetValueParticularEntry_checked (malloc : Nat → Option UInt64) (value : ClBin) (opened : OpenOp orig buf op) :
    Checked (nameSzAt orig op ≤ 32 → valueAt orig op ≤ orig.length ∧ ValueInside malloc orig op) (fun _ => True)
      (clSetValueParticularEntry malloc buf op value) := by
  have step : Checked (True ∧ (nameSzAt orig op > 32 → True) ∧ (¬nameSzAt orig op > 32 →
      op + 8 + nameSzAt orig op ≤ orig.length ∧ ValueInside malloc orig op ∧ True))
      (fun _ => True) (clSetValueParticularEntry malloc buf op value) := by
    refine opened.name_sz.bind fun nameSz _ same => ?_
    subst same
    refine .ite (fun _ => .pure trivial) fun _ => ?_
    refine (opened.agree.readBytes_checked (by omega)).bind fun name _ _ => ?_
    exact (setObject_checked malloc _ opened).bind fun _ _ _ => .pure trivial
  apply step.congr
  rw [true_and,implies_true,true_and,and_true,gt_iff_lt,Nat.not_lt]
  rfl

theorem readMessageOps_checked (malloc : Nat → Option UInt64) (values : List ClBin) (agree : Agree op orig buf) :
    Checked (∀ i < values.length, EntryInside malloc orig (itemAt orig op i))
      (fun out => out.1.length = values.length ∧ out.2.2 = itemAt orig op values.length ∧ Agree out.2.2 orig out.2.1)
      (readMessageOps malloc values buf op) := by
  induction values generalizing op buf with
  | nil => exact .gives (fun _ below => absurd below (Nat.not_lt_zero _)) ⟨rfl,rfl,agree⟩
  | cons value values ih =>
    have step : Checked (op + 8 ≤ orig.length ∧ (nameSzAt orig op ≤ 32 →
        valueAt orig op ≤ orig.length ∧ ValueInside malloc orig op) ∧ True ∧
        (∀ i < values.length, EntryInside malloc orig (itemAt orig (op + 4 + wordAt orig op) i)) ∧ True)
        (fun out => out.1.length = (value :: values).length ∧ out.2.2 = itemAt orig op (value :: values).length ∧
          Agree out.2.2 orig out.2.1) (readMessageOps malloc (value :: values) buf op) := by
      refine swapOp_checked agree (fun after outside => by simp [clSetValueParticularEntry,outside])
        fun after opened => ?_
      refine (clSetValueParticularEntry_checked malloc value opened).bind fun value _ _ => ?_
      refine opened.get_next.bind fun next _ same => ?_
      subst same
      refine (ih (opened.agree.later (Nat.le_add_right _ _))).bind fun out _ found => ?_
      obtain ⟨count,ended,same⟩ := found
      exact .pure ⟨congrArg (· + 1) count,ended,same⟩
    apply step.congr
    rw [List.length_cons,all_items_succ]
    simp only [true_and,and_true,EntryInside,and_assoc]

/-! ### Messages -/

theorem binsLocal_given (heap : Heap) (stack : List ClBin) (room : stack.length = stackBins) (nOps : Nat) :
    (¬BinsGiven heap nOps ∧ binsLocal heap stack nOps = none) ∨
      (BinsGiven heap nOps ∧ ∃ bins, binsLocal heap stack nOps = some bins ∧ bins.length = nOps) := by
  unfold BinsGiven binsLocal
  split
  · rename_i many
    cases heap.malloc (64 * nOps) with
    | none => exact .inl ⟨fun given => Bool.false_ne_true (given many),rfl⟩
    | some address => exact .inr ⟨fun _ => rfl,_,rfl,by rw [List.length_map,List.length_range]⟩
  · rename_i few
    exact .inr ⟨fun many => absurd many few,_,rfl,List.length_take_of_le (by omega)⟩

/-- What one turn leaves, when it does not return -1: the header as it was received, and the
cursor at the end of the message with nothing changed behind it. -/
structure TurnOf (orig : List UInt8) (p : Nat) (read : ReadMessage) : Prop where
  m : read.m = msgAt orig p
  next : read.next = messageEnd orig p
  agree : Agree read.next orig read.buf
  room : read.stack.length = stackBins

theorem readMessage_checked (heap : Heap) (stack : List ClBin) (room : stack.length = stackBins)
    (agree : Agree p orig buf) :
    Checked (MessageInside heap orig p)
      (fun out => (MessagePasses heap orig p ∧ ∃ read, out = .ok read ∧ TurnOf orig p read) ∨
        (¬MessagePasses heap orig p ∧ ∃ exit, out = .error exit ∧ (exit = .wrongHeaderSz ∨ exit = .noBins))) (readMessage heap stack buf p) := by
  by_cases inside : p + 22 ≤ orig.length
  · obtain ⟨after,swapped,known,same⟩ := header_inside agree inside
    by_cases size : (msgAt orig p).headerSz = 22
    · have fields := readMessageFields_checked heap.malloc (msgAt orig p).nFields.toNat (.init after (p + 22)) same
        List.length_replicate
      have given := binsLocal_given heap stack room (msgAt orig p).nOps.toNat
      have step : Checked ((∀ i < (msgAt orig p).nFields.toNat,
            MessageFieldInside heap.malloc orig (itemAt orig (p + 22) i)) ∧
          (MessagePasses heap orig p →
            ∀ i < (msgAt orig p).nOps.toNat, EntryInside heap.malloc orig (itemAt orig (opsAt orig p) i)))
          (fun out => (MessagePasses heap orig p ∧ ∃ read, out = .ok read ∧ TurnOf orig p read) ∨
            (¬MessagePasses heap orig p ∧ ∃ exit, out = .error exit ∧ (exit = .wrongHeaderSz ∨ exit = .noBins))) (readMessage heap stack buf p) := by
        unfold readMessage
        rw [swapped,Option.bind_eq_bind,Option.bind_some,known,Option.bind_eq_bind,Option.bind_some,
          if_neg (Decidable.not_not.mpr size)]
        refine fields.bind fun s _ ⟨ended,same⟩ => ?_
        rcases given with ⟨refused,none⟩ | ⟨given,bins,some,count⟩
        · have stopped : ¬MessagePasses heap orig p := fun passes => refused passes.2
          rw [none]
          exact .gives (fun passes => absurd passes stopped) (.inr ⟨stopped,_,rfl,.inr rfl⟩)
        · have passes : MessagePasses heap orig p := ⟨size,given⟩
          have ops := readMessageOps_checked heap.malloc bins same
          rw [count,ended] at ops
          rw [some,ended]
          refine (ops.bind fun out _ ⟨filled,next,same⟩ => .pure (.inl ⟨passes,_,rfl,rfl,next,same,?_⟩)).congr
            (⟨fun both _ => both.1,fun all => ⟨all passes,trivial⟩⟩ : _ ∧ True ↔ _)
          dsimp only
          split
          · exact room
          · rw [List.length_append,List.length_drop,filled,room]
            omega
      exact step.congr ⟨fun both => ⟨inside,fun _ => both.1,both.2⟩,fun all => ⟨all.fields size,all.ops⟩⟩
    · have stopped : ¬MessagePasses heap orig p := fun passes => size passes.1
      have refused : readMessage heap stack buf p = some (.error .wrongHeaderSz) := by
        unfold readMessage
        rw [swapped,Option.bind_eq_bind,Option.bind_some,known,Option.bind_eq_bind,Option.bind_some,if_pos size]
        rfl
      rw [refused]
      exact .gives ⟨inside,fun is => absurd is size,fun passes => absurd passes stopped⟩ (.inr ⟨stopped,_,rfl,.inl rfl⟩)
  · have none : readMessage heap stack buf p = none := by
      unfold readMessage
      rw [header_outside agree inside]
      rfl
    rw [none]
    exact .fails fun all => inside all.header

/-! ### The messages of a proto -/

/-- From the start of a message to the start of the next, while the loop goes on. -/
structure WalkStep (heap : Heap) (buf : List UInt8) (p q : Nat) : Prop where
  goes : p % 2 ^ 32 < buf.length
  passes : MessagePasses heap buf p
  next : q = messageEnd buf p

/-- The messages a walk comes to. -/
def Visited (heap : Heap) (buf : List UInt8) (p q : Nat) : Prop :=
  Reachable (· = p) (WalkStep heap buf) q ∧ q % 2 ^ 32 < buf.length

def MessagesInside (heap : Heap) (buf : List UInt8) (p : Nat) : Prop :=
  ∀ q, Visited heap buf p q → MessageInside heap buf q

def MessagesPass (heap : Heap) (buf : List UInt8) (p : Nat) : Prop :=
  ∀ q, Visited heap buf p q → MessagePasses heap buf q

def MessagesStop (stops : ClMsg → Bool) (heap : Heap) (buf : List UInt8) (p : Nat) : Prop :=
  ∃ q, Visited heap buf p q ∧ stops (msgAt buf q)

theorem visited_iff : Visited heap buf p q ↔
    p % 2 ^ 32 < buf.length ∧ (q = p ∨ MessagePasses heap buf p ∧ Visited heap buf (messageEnd buf p) q) := by
  unfold Visited
  rw [reachable_from_iff]
  constructor
  · rintro ⟨rfl | ⟨r,⟨goes,passes,rfl⟩,rest⟩,within⟩
    · exact ⟨within,.inl rfl⟩
    · exact ⟨goes,.inr ⟨passes,rest,within⟩⟩
  · rintro ⟨goes,rfl | ⟨passes,rest,within⟩⟩
    · exact ⟨.inl rfl,goes⟩
    · exact ⟨.inr ⟨_,⟨goes,passes,rfl⟩,rest⟩,within⟩

/-- What all messages of a walk do, by the first one and the walk behind it. -/
theorem all_visited_iff (heap : Heap) (goes : p % 2 ^ 32 < buf.length) (does : Nat → Prop) :
    (∀ q, Visited heap buf p q → does q) ↔
      does p ∧ (MessagePasses heap buf p → ∀ q, Visited heap buf (messageEnd buf p) q → does q) := by
  constructor
  · intro all
    exact ⟨all p (visited_iff.mpr ⟨goes,.inl rfl⟩),fun passes q later => all q (visited_iff.mpr ⟨goes,.inr ⟨passes,later⟩⟩)⟩
  · rintro ⟨first,rest⟩ q visited
    rcases (visited_iff.mp visited).2 with rfl | ⟨passes,later⟩
    · exact first
    · exact rest passes q later

theorem le_itemAt (buf : List UInt8) (start i : Nat) : start ≤ itemAt buf start i := by
  induction i generalizing start with
  | zero => exact Nat.le_refl start
  | succ i ih =>
    have rest := ih (start + 4 + wordAt buf start)
    rw [itemAt]
    omega

theorem messageEnd_le (buf : List UInt8) (p : Nat) : p + 22 ≤ messageEnd buf p :=
  Nat.le_trans (le_itemAt buf (p + 22) _) (le_itemAt buf (opsAt buf p) _)

theorem messagesStop_iff (goes : p % 2 ^ 32 < buf.length) : MessagesStop stops heap buf p ↔
    stops (msgAt buf p) ∨ MessagePasses heap buf p ∧ MessagesStop stops heap buf (messageEnd buf p) := by
  constructor
  · rintro ⟨q,visited,stop⟩
    rcases (visited_iff.mp visited).2 with rfl | ⟨passes,later⟩
    · exact .inl stop
    · exact .inr ⟨passes,q,later,stop⟩
  · rintro (stop | ⟨passes,q,later,stop⟩)
    · exact ⟨p,visited_iff.mpr ⟨goes,.inl rfl⟩,stop⟩
    · exact ⟨q,visited_iff.mpr ⟨goes,.inr ⟨passes,later⟩⟩,stop⟩

/-- What a walk comes to: a return of -1 that a message makes, else `done` if a message stops the
loop. -/
structure WalkOf (stops : ClMsg → Bool) (heap : Heap) (buf : List UInt8) (p : Nat) (s : Progress CallbackRecord)
    (out : Option StreamExit × Progress CallbackRecord) : Prop where
  walked : out.1 = none ↔ MessagesPass heap buf p
  done : out.1 = none → (out.2.done = true ↔ s.done = true ∨ MessagesStop stops heap buf p)
  fails : ∀ exit, out.1 = some exit → exit = .wrongHeaderSz ∨ exit = .noBins

theorem walk_over (past : ¬p % 2 ^ 32 < buf.length) :
    Checked (MessagesInside heap buf p) (WalkOf stops heap buf p s) (some (none,s)) := by
  have nothing (q : Nat) (visited : Visited heap buf p q) : False := past (visited_iff.mp visited).1
  refine .gives (fun q visited => (nothing q visited).elim) ⟨?_,fun _ => ?_,nofun⟩
  · exact iff_of_true rfl fun q visited => (nothing q visited).elim
  · exact ⟨.inl,fun either => either.resolve_right fun ⟨q,visited,_⟩ => nothing q visited⟩

/-- A message moves the cursor by 22 bytes, so the fuel lasts until a message starts outside. -/
theorem walkMessages_checked (heap : Heap) (stops : ClMsg → Bool)
    (message : Progress CallbackRecord → ClMsg → CallbackRecord → Progress CallbackRecord)
    (done : ∀ s m record, (message s m record).done = (s.done || stops m)) (stack : List ClBin)
    (room : stack.length = stackBins) (agree : Agree p orig buf) (enough : orig.length < p + fuel)
    (s : Progress CallbackRecord) :
    Checked (MessagesInside heap orig p) (WalkOf stops heap orig p s) (walkMessages heap message fuel stack buf p s) := by
  induction fuel generalizing stack buf p s with
  | zero =>
    rw [walkMessages,← agree.size]
    split
    · rename_i goes
      refine .fails fun inside => ?_
      have header := (inside p (visited_iff.mpr ⟨goes,.inl rfl⟩)).header
      omega
    · rename_i past
      exact walk_over past
  | succ fuel ih =>
    rw [walkMessages,← agree.size]
    split
    · rename_i goes
      have turn := readMessage_checked heap stack room agree
      refine (turn.bind fun out _ found => ?_).congr (all_visited_iff heap goes (MessageInside heap orig)).symm
      have pass := all_visited_iff heap goes (MessagePasses heap orig)
      rcases found with ⟨passes,read,rfl,⟨m,next,same,room⟩⟩ | ⟨stopped,exit,rfl,made⟩
      · have moved := messageEnd_le orig p
        have rest := ih read.stack room same (by omega) (message s read.m read.record)
        rw [next] at rest
        change Checked _ _ (walkMessages heap message fuel read.stack read.buf read.next _)
        rw [next]
        refine (rest.weaken fun out ⟨walked,stop,fails⟩ => ?_).congr ⟨fun all _ => all,fun all => all passes⟩
        refine ⟨?_,fun whole => ?_,fails⟩
        · exact walked.trans ⟨fun all => pass.mpr ⟨passes,fun _ => all⟩,fun all => (pass.mp all).2 passes⟩
        · rw [stop whole,done,m,Bool.or_eq_true,messagesStop_iff goes,or_assoc,and_iff_right passes]
      · refine .gives (fun passes => absurd passes stopped) ⟨?_,nofun,fun other same => ?_⟩
        · exact iff_of_false nofun fun all => stopped (pass.mp all).1
        · obtain rfl := Option.some.inj same
          exact made
    · rename_i past
      exact walk_over past

/-! ### Streams -/

/-- Which messages end the stream, for each of the two loops. -/
def batchStops (m : ClMsg) : Bool := batchAborts m || isLast m

def scanStops (m : ClMsg) : Bool := m.resultCode ≠ clResultOk || isLast m

theorem doBatchMonte_done (inflate : List UInt8 → Option (List UInt8)) (cb : Bool) (s : Progress ρ) (m : ClMsg) (record : ρ) :
    ((doBatchMonte inflate cb).message s m record).done = (s.done || batchStops m) := by
  change (batchMessage cb s m record).done = _
  unfold batchMessage batchStops
  cases batchAborts m <;> cases isLast m <;> cases batchRecord cb m <;> simp

theorem doScanMonte_done (operationInfo : UInt32) (s : Progress ρ) (m : ClMsg) (record : ρ) :
    ((doScanMonte operationInfo).message s m record).done = (s.done || scanStops m) := by
  change (scanMessage operationInfo s m record).done = _
  unfold scanMessage scanStops
  by_cases ok : m.resultCode = clResultOk
  · cases isLast m <;> cases scanRecord operationInfo m <;> simp [ok]
  · simp [ok]

/-- Behind a proto whose messages are all taken and none of which ends the stream, the loop reads
on. -/
def StreamStep (loop : ReadLoop) (stops : ClMsg → Bool) (heap : Heap) (stream rest : List UInt8) : Prop :=
  ∃ body, loop.receiveBody heap.malloc stream = .ok (body,rest) ∧ MessagesPass heap body 0 ∧
    ¬MessagesStop stops heap body 0

/-- Every proto the loop comes to holds the messages it comes to there. -/
def StreamInside (loop : ReadLoop) (stops : ClMsg → Bool) (heap : Heap) (stream : List UInt8) : Prop :=
  ∀ later body rest, Reachable (· = stream) (StreamStep loop stops heap) later →
    loop.receiveBody heap.malloc later = .ok (body,rest) → MessagesInside heap body 0

theorem receive_length (got : receive stream n = some (first,rest)) : rest.length + n = stream.length := by
  unfold receive at got
  split at got
  · obtain ⟨_,rfl⟩ := Prod.mk.inj (Option.some.inj got)
    rw [List.length_drop]
    omega
  · cases got

theorem receiveBody_shorter (loop : ReadLoop) (got : loop.receiveBody malloc stream = .ok (body,rest)) :
    rest.length < stream.length := by
  unfold ReadLoop.receiveBody at got
  obtain ⟨⟨proto,behind⟩,header,got⟩ := except_bind_ok.mp got
  have header := orError_ok.mp header
  unfold receiveProto at header
  obtain ⟨⟨bytes,left⟩,first,header⟩ := Option.bind_eq_some_iff.mp header
  obtain ⟨bytes,_,header⟩ := Option.bind_eq_some_iff.mp header
  obtain ⟨known,_,header⟩ := Option.bind_eq_some_iff.mp header
  obtain ⟨rfl,rfl⟩ := Prod.mk.inj (Option.some.inj header)
  have eight := receive_length first
  dsimp only at got
  split at got
  · cases got
  split at got
  · cases got
  obtain ⟨_,_,got⟩ := except_bind_ok.mp got
  obtain ⟨⟨payload,left⟩,second,got⟩ := except_bind_ok.mp got
  have more := receive_length (orError_ok.mp second)
  have same : left = rest := by
    split at got
    · obtain ⟨_,_,got⟩ := except_bind_ok.mp got
      exact (Prod.mk.inj (Except.ok.inj got)).2
    · exact (Prod.mk.inj (Except.ok.inj got)).2
  subst same
  omega

/-- What a stream does, by its first proto and the stream behind it. -/
theorem streamInside_iff (got : ReadLoop.receiveBody loop heap.malloc stream = .ok (body,rest)) :
    StreamInside loop stops heap stream ↔ MessagesInside heap body 0 ∧
      (MessagesPass heap body 0 → ¬MessagesStop stops heap body 0 → StreamInside loop stops heap rest) := by
  constructor
  · intro all
    refine ⟨all stream body rest (.start rfl) got,fun passes goes later content behind reached => ?_⟩
    exact all later content behind (reachable_from_iff.mpr (.inr ⟨rest,⟨body,got,passes,goes⟩,reached⟩))
  · rintro ⟨first,others⟩ later content behind reached received
    rcases reachable_from_iff.mp reached with rfl | ⟨next,⟨other,taken,passes,goes⟩,reached⟩
    · obtain ⟨rfl,rfl⟩ := Prod.mk.inj (Except.ok.inj (got.symm.trans received))
      exact first
    · obtain ⟨rfl,rfl⟩ := Prod.mk.inj (Except.ok.inj (got.symm.trans taken))
      exact others passes goes later content behind reached received

/-- The loop comes to a proto whose messages are all taken, with one that ends the stream. -/
def StreamEnds (loop : ReadLoop) (stops : ClMsg → Bool) (heap : Heap) (stream : List UInt8) : Prop :=
  ∃ later body rest, Reachable (· = stream) (StreamStep loop stops heap) later ∧
    loop.receiveBody heap.malloc later = .ok (body,rest) ∧ MessagesPass heap body 0 ∧ MessagesStop stops heap body 0

/-- Whether a stream ends, by its first proto and the stream behind it. -/
theorem streamEnds_iff (got : ReadLoop.receiveBody loop heap.malloc stream = .ok (body,rest)) :
    StreamEnds loop stops heap stream ↔
      MessagesPass heap body 0 ∧ (MessagesStop stops heap body 0 ∨ StreamEnds loop stops heap rest) := by
  constructor
  · rintro ⟨later,content,behind,reached,received,passes,stop⟩
    rcases reachable_from_iff.mp reached with rfl | ⟨next,⟨other,taken,passed,_⟩,reached⟩
    · obtain ⟨rfl,rfl⟩ := Prod.mk.inj (Except.ok.inj (got.symm.trans received))
      exact ⟨passes,.inl stop⟩
    · obtain ⟨rfl,rfl⟩ := Prod.mk.inj (Except.ok.inj (got.symm.trans taken))
      exact ⟨passed,.inr ⟨later,content,behind,reached,received,passes,stop⟩⟩
  · rintro ⟨passes,ends⟩
    by_cases stop : MessagesStop stops heap body 0
    · exact ⟨stream,body,rest,.start rfl,got,passes,stop⟩
    · obtain ⟨later,content,behind,reached,received⟩ := ends.resolve_left stop
      exact ⟨later,content,behind,reachable_from_iff.mpr (.inr ⟨rest,⟨body,got,passes,stop⟩,reached⟩),received⟩

/-- The returns of -1 that a loop makes. -/
structure ReadLoop.Fails (loop : ReadLoop) (exit : StreamExit) : Prop where
  within : exit ≠ .pooled ∧ exit ≠ .closed
  inflates : exit = .notDecompressed → loop.inflate.isSome

theorem ReadLoop.Fails.pooled {loop : ReadLoop} (fails : loop.Fails exit) : decide (exit = .pooled) = false :=
  decide_eq_false fails.within.1

theorem ReadLoop.Fails.message {loop : ReadLoop} (exit : StreamExit) (made : exit = .wrongHeaderSz ∨ exit = .noBins) :
    loop.Fails exit := by
  rcases made with rfl | rfl <;> exact ⟨⟨StreamExit.noConfusion,StreamExit.noConfusion⟩,StreamExit.noConfusion⟩

theorem receiveBody_fails (loop : ReadLoop) (given : loop.receiveBody malloc stream = .error exit) : loop.Fails exit := by
  unfold ReadLoop.receiveBody at given
  rcases except_bind_error.mp given with unread | ⟨⟨proto,stream⟩,_,given⟩
  · obtain ⟨_,rfl⟩ := orError_error.mp unread
    exact ⟨⟨nofun,nofun⟩,nofun⟩
  dsimp only at given
  split at given
  · cases given
    exact ⟨⟨nofun,nofun⟩,nofun⟩
  split at given
  · cases given
    exact ⟨⟨nofun,nofun⟩,nofun⟩
  rename_i typed
  rcases except_bind_error.mp given with missing | ⟨_,_,given⟩
  · obtain ⟨_,rfl⟩ := orError_error.mp missing
    exact ⟨⟨nofun,nofun⟩,nofun⟩
  rcases except_bind_error.mp given with unread | ⟨⟨body,rest⟩,_,given⟩
  · obtain ⟨_,rfl⟩ := orError_error.mp unread
    exact ⟨⟨nofun,nofun⟩,nofun⟩
  split at given
  · rename_i compressed
    rcases except_bind_error.mp given with failed | ⟨_,_,given⟩
    · obtain ⟨_,rfl⟩ := orError_error.mp failed
      refine ⟨⟨nofun,nofun⟩,fun _ => ?_⟩
      by_contra plain
      exact typed ⟨by rw [compressed]; decide,.inr (by simpa using plain)⟩
    · cases given
  · cases given

/-- How the loop leaves: behind a last message with the last return, elsewhere with one of -1. -/
structure StreamOf (loop : ReadLoop) (stops : ClMsg → Bool) (heap : Heap) (stream : List UInt8)
    (result : StreamResult CallbackRecord) : Prop where
  ended : StreamEnds loop stops heap stream → result.exit = loop.leave result.rv
  failed : ¬StreamEnds loop stops heap stream → loop.Fails result.exit

/-- A proto takes eight bytes, so the fuel lasts for the stream. -/
theorem run_of (loop : ReadLoop) (stops : ClMsg → Bool)
    (done : ∀ (s : Progress CallbackRecord) m record, (loop.message s m record).done = (s.done || stops m))
    (heap : Heap) (stream : List UInt8) (enough : stream.length < fuel) (calls : List CallbackRecord) :
    Checked (StreamInside loop stops heap stream) (StreamOf loop stops heap stream) (loop.run heap fuel stream calls) := by
  induction fuel generalizing stream calls with
  | zero => cases enough
  | succ fuel ih =>
    rw [ReadLoop.run]
    cases got : loop.receiveBody heap.malloc stream with
    | error exit =>
      have nothing {later body rest} (reached : Reachable (· = stream) (StreamStep loop stops heap) later)
          (received : loop.receiveBody heap.malloc later = .ok (body,rest)) : False := by
        rcases reachable_from_iff.mp reached with rfl | ⟨next,⟨other,taken,_⟩,_⟩
        · rw [got] at received
          cases received
        · rw [got] at taken
          cases taken
      refine .gives (fun later body rest reached received => (nothing reached received).elim)
        ⟨fun ends => ?_,fun _ => receiveBody_fails loop got⟩
      obtain ⟨later,body,rest,reached,received,_⟩ := ends
      exact (nothing reached received).elim
    | ok pair =>
      obtain ⟨body,rest⟩ := pair
      have shorter := receiveBody_shorter loop got
      have walk := walkMessages_checked (p := 0) heap stops loop.message done ((List.range stackBins).map heap.garbage)
        (by rw [List.length_map,List.length_range]) (.refl 0 body) (by omega : body.length < 0 + (body.length + 1))
        ⟨0,false,calls⟩
      refine (walk.bind fun out _ ⟨walked,stopped,fails⟩ => ?_).congr (streamInside_iff got).symm
      obtain ⟨exit,s⟩ := out
      dsimp only at walked stopped fails ⊢
      cases exit with
      | some exit =>
        have stays : ¬MessagesPass heap body 0 := fun passes => nomatch walked.mpr passes
        exact .gives (fun passes => absurd passes stays)
          ⟨fun ends => absurd ((streamEnds_iff got).mp ends).1 stays,fun _ => .message exit (fails exit rfl)⟩
      | none =>
        have passes := walked.mp rfl
        dsimp only
        cases ended : s.done with
        | true =>
          have stop := ((stopped rfl).mp ended).resolve_left nofun
          exact .gives (fun _ goes => absurd stop goes)
            ⟨fun _ => rfl,fun goes => absurd ((streamEnds_iff got).mpr ⟨passes,.inl stop⟩) goes⟩
        | false =>
          have goes : ¬MessagesStop stops heap body 0 := fun stop => by
            rw [(stopped rfl).mpr (.inr stop)] at ended
            cases ended
          have behind : StreamEnds loop stops heap stream ↔ StreamEnds loop stops heap rest :=
            (streamEnds_iff got).trans (and_iff_right passes) |>.trans (or_iff_right goes)
          refine ((ih rest (by omega) s.calls).weaken fun result of => ?_).congr ⟨fun inside _ _ => inside,fun inside => inside passes goes⟩
          exact ⟨fun ends => of.ended (behind.mp ends),fun stays => of.failed fun ends => stays (behind.mpr ends)⟩

theorem result_of (loop : ReadLoop) (stops : ClMsg → Bool)
    (done : ∀ (s : Progress CallbackRecord) m record, (loop.message s m record).done = (s.done || stops m))
    (heap : Heap) (stream : List UInt8) :
    Checked (StreamInside loop stops heap stream) (StreamOf loop stops heap stream) (loop.result heap stream) :=
  run_of loop stops done heap stream (Nat.lt_succ_self _) []

theorem result_checked (loop : ReadLoop) (stops : ClMsg → Bool)
    (done : ∀ (s : Progress CallbackRecord) m record, (loop.message s m record).done = (s.done || stops m))
    (heap : Heap) (stream : List UInt8) :
    Checked (StreamInside loop stops heap stream) (fun _ => True) (loop.result heap stream) :=
  (result_of loop stops done heap stream).weaken fun _ _ => trivial

/-- A batch and a scan stay inside their buffers and arrays exactly when every message they come
to lies inside. -/
theorem stream_contained (heap : Heap) (inflate : List UInt8 → Option (List UInt8)) (cb : Bool) (operationInfo : UInt32)
    (stream : List UInt8) :
    ((∃ result, (doBatchMonte inflate cb).result heap stream = some result) ↔
      StreamInside (doBatchMonte inflate cb) batchStops heap stream) ∧
    ((∃ result, (doScanMonte operationInfo).result heap stream = some result) ↔
      StreamInside (doScanMonte operationInfo) scanStops heap stream) := by
  constructor
  · rw [← (result_checked _ batchStops (doBatchMonte_done inflate cb) heap stream).isSome_iff,Option.isSome_iff_exists]
  · rw [← (result_checked _ scanStops (doScanMonte_done operationInfo) heap stream).isSome_iff,Option.isSome_iff_exists]

/-! ### A stream that is not -/

/-- One field is counted, and the proto ends behind the header. -/
def fieldMissing : List UInt8 :=
  ClProto.wire ⟨clProtoVersion,clProtoTypeClMsg,22⟩ ++ ClMsg.wire ⟨22,0,0,1,0,0,0,0,0,1,0⟩

/-- A namespace of 33 bytes inside the proto, with its NUL behind `ns_ret`. -/
def longNamespace : List UInt8 :=
  ClProto.wire ⟨clProtoVersion,clProtoTypeClMsg,60⟩ ++ (ClMsg.wire ⟨22,0,0,1,0,0,0,0,0,1,0⟩ ++
    ([0,0,0,34,clMsgFieldTypeNamespace] ++ List.replicate 33 97))

theorem field_outside :
    (¬∀ heap inflate cb stream, ∃ result, (doBatchMonte inflate cb).result heap stream = some result) ∧
    (¬∀ heap operationInfo stream, ∃ result, (doScanMonte operationInfo).result heap stream = some result) := by
  constructor
  · intro every
    obtain ⟨result,returned⟩ := every sampleHeap (fun _ => none) true fieldMissing
    have left : ((doBatchMonte (fun _ => none) true).result sampleHeap fieldMissing).isNone = true := by decide
    rw [returned] at left
    cases left
  · intro every
    obtain ⟨result,returned⟩ := every sampleHeap 1 fieldMissing
    have left : ((doScanMonte 1).result sampleHeap fieldMissing).isNone = true := by decide
    rw [returned] at left
    cases left

example : ((doScanMonte 1).result sampleHeap longNamespace).isNone = true := by decide

end Citrusleaf
