import Citrusleaf.StreamMessages

/-! Reads of chosen bins. `cl_parse` looks each operation up in the array of the caller by as many
bytes as the name in the response has, so a longer name that begins with it is found as well. -/
namespace Citrusleaf
open Lib

/-! ### Responses -/

/-- A field of a response: a transaction id has its eight bytes. -/
structure ResponseField (field : UInt8 × List UInt8) : Prop where
  fits : field.2.length + 1 < 2 ^ 32
  trid : field.1 = clMsgFieldTypeTrid → 8 ≤ field.2.length

def responseBytes (fields : List (UInt8 × List UInt8)) (ops : List WireOp) : List UInt8 :=
  fields.flatMap fieldBytes ++ ops.flatMap WireOp.wire

theorem readBytes_part (whole : readBytes mem p n = some bytes) (part : m ≤ n) : ∃ front, readBytes mem p m = some front := by
  rw [readBytes] at whole
  split at whole
  · exact ⟨_,by rw [readBytes,if_pos (by omega)]⟩
  · cases whole

theorem parseField_at (caller : ParseCaller) (before after : List UInt8) (type : UInt8) (data : List UInt8)
    (formed : ResponseField (type,data)) (start : s.mf = before.length)
    (buf : s.buf = before ++ (fieldBytes (type,data) ++ after)) :
    ∃ t, parseField caller s = some t ∧ t.mf = s.mf + (5 + data.length) ∧
      t.buf = before ++ (hostField type data ++ after) := by
  have swapped := swapField_at before after type data start
  have host := hostField_at before after type data start formed.fits
  by_cases trid : type = clMsgFieldTypeTrid
  · obtain ⟨nbo,read⟩ := readBytes_part host.copied (formed.trid trid)
    refine ⟨⟨_,_,if caller.tridR then some (beNat nbo).toUInt64 else s.trid,s.setname⟩,?_,rfl,rfl⟩
    rw [parseField,buf]
    apply bind_given swapped
    apply bind_given host.typed
    apply bind_given host.next
    rw [if_pos trid]
    exact bind_given read rfl
  by_cases set : type = clMsgFieldTypeSet ∧ caller.setnameR
  · refine ⟨⟨_,_,s.trid,some data⟩,?_,rfl,rfl⟩
    rw [parseField,buf]
    apply bind_given swapped
    apply bind_given host.typed
    apply bind_given host.next
    rw [if_neg trid,if_pos set]
    apply bind_given host.sized
    rw [fieldValueSz_eq formed.fits]
    exact bind_given host.copied rfl
  · refine ⟨⟨_,_,s.trid,s.setname⟩,?_,rfl,rfl⟩
    rw [parseField,buf]
    apply bind_given swapped
    apply bind_given host.typed
    apply bind_given host.next
    rw [if_neg trid,if_neg set]
    rfl

theorem parseFields_at (caller : ParseCaller) (before after : List UInt8) (fields : List (UInt8 × List UInt8))
    (formed : ∀ field ∈ fields, ResponseField field) (start : s.mf = before.length)
    (buf : s.buf = before ++ (fields.flatMap fieldBytes ++ after)) :
    ∃ t mid, parseFields caller fields.length s = some (0,t) ∧ t.mf = (before ++ mid).length ∧
      t.buf = before ++ (mid ++ after) := by
  induction fields generalizing before s with
  | nil => exact ⟨s,[],rfl,by rw [List.append_nil,start],buf⟩
  | cons field fields ih =>
    obtain ⟨type,data⟩ := field
    rw [List.flatMap_cons,List.append_assoc] at buf
    obtain ⟨first,one,moved,changed⟩ := parseField_at caller before (fields.flatMap fieldBytes ++ after) type data
      (formed _ List.mem_cons_self) start buf
    obtain ⟨t,mid,rest,ended,final⟩ := ih (before ++ hostField type data)
      (fun field member => formed field (List.mem_cons_of_mem _ member))
      (by rw [moved,start,List.length_append,hostField_length]) (by rw [changed,List.append_assoc])
    have room : ¬s.buf.length < 5 := by
      rw [buf,List.length_append,List.length_append,fieldBytes_length]
      omega
    refine ⟨t,hostField type data ++ mid,?_,?_,?_⟩
    · rw [List.length_cons,parseFields,if_neg room]
      exact bind_given one rest
    · rw [ended,List.append_assoc]
    · rw [final,List.append_assoc,List.append_assoc]

/-! ### The search -/

/-- An object with the type and the value of an operation. -/
def WireOp.Held (op : WireOp) (o : ClObject) : Prop := op.view = ⟨cString op.name,o.type,o.sz,o.value⟩

/-- The first bin whose name begins with that of the operation is filled. -/
inductive Searched (op : WireOp) : List ClBin → List ClBin → Prop where
  | absent : Searched op [] []
  | here (value : ClBin) (values : List ClBin) (o : ClObject) (begins : op.name <+: value.binName.str) (held : op.Held o) :
    Searched op (value :: values) ({value with object := o} :: values)
  | there (value : ClBin) (values after : List ClBin) (other : ¬op.name <+: value.binName.str)
    (rest : Searched op values after) : Searched op (value :: values) (value :: after)

/-- `memcmp` of so many bytes as a name without a NUL has. -/
theorem memcmp_begins (name : BinName) (wanted : List UInt8) (plain : (0 : UInt8) ∉ wanted) :
    name.chars.take wanted.length = wanted ↔ wanted <+: name.str := by
  rw [eq_comm,← List.prefix_iff_eq_take,BinName.str]
  constructor
  · rintro ⟨rest,parts⟩
    have whole : wanted.takeWhile (· != 0) = wanted := List.takeWhile_eq_self_iff.mpr fun c member => by
      rw [bne_iff_ne]
      exact fun zero => plain (zero ▸ member)
    rw [← parts,List.takeWhile_append,whole,if_pos rfl]
    exact List.prefix_append _ _
  · exact fun begins => begins.trans (List.takeWhile_prefix _)

theorem setValueSearch_at (host : HostWireOp buf p op) (formed : op.WellFormed) (plain : (0 : UInt8) ∉ op.name)
    (plenty : Plenty malloc) (values : List ClBin) :
    ∃ rv after, setValueSearch malloc buf p values = some (rv,after) ∧ Searched op values after := by
  induction values with
  | nil => exact ⟨-1,[],rfl,.absent⟩
  | cons value values ih =>
    have short := formed.name
    have front : readBytes value.binName.chars 0 op.name.length = some (value.binName.chars.take op.name.length) := by
      rw [readBytes,if_pos (by rw [value.binName.size]; omega),List.drop_zero]
    by_cases begins : op.name <+: value.binName.str
    · obtain ⟨o,stored,held⟩ := setObject_wire host formed plenty value.object
      refine ⟨0,_,?_,.here value values o begins held⟩
      apply bind_given host.nameSz
      apply bind_given front
      apply bind_given host.named
      rw [if_pos ((memcmp_begins _ _ plain).mpr begins)]
      exact bind_given stored rfl
    · obtain ⟨rv,after,found,searched⟩ := ih
      refine ⟨rv,_,?_,.there value values after begins searched⟩
      apply bind_given host.nameSz
      apply bind_given front
      apply bind_given host.named
      rw [if_neg (mt (memcmp_begins _ _ plain).mp begins)]
      exact bind_given found rfl

/-- One operation after the other is searched for. -/
inductive SearchedAll : List WireOp → List ClBin → List ClBin → Prop where
  | nil (values : List ClBin) : SearchedAll [] values values
  | cons {op : WireOp} {ops : List WireOp} {values mid after : List ClBin} (first : Searched op values mid)
    (rest : SearchedAll ops mid after) : SearchedAll (op :: ops) values after

theorem parseOpsSearch_at (plenty : Plenty malloc) (before : List UInt8) (ops : List WireOp)
    (formed : ∀ op ∈ ops, op.WellFormed) (plain : ∀ op ∈ ops, (0 : UInt8) ∉ op.name) (start : p = before.length)
    (room : first + 8 ≤ (before ++ ops.flatMap WireOp.wire).length ∨ ops = []) (values : List ClBin) :
    ∃ after, parseOpsSearch malloc first ops.length values (before ++ ops.flatMap WireOp.wire) p = some (0,after) ∧
      SearchedAll ops values after := by
  induction ops generalizing before p values with
  | nil => exact ⟨values,rfl,.nil values⟩
  | cons op ops ih =>
    have enough := room.resolve_right (List.cons_ne_nil op ops)
    have good := formed op List.mem_cons_self
    rw [List.flatMap_cons] at enough ⊢
    have swapped := swapWireOp_at before (ops.flatMap WireOp.wire) op start
    have host := hostWireOp_at before (ops.flatMap WireOp.wire) op good start
    obtain ⟨rv,mid,found,searched⟩ := setValueSearch_at host good (plain op List.mem_cons_self) plenty values
    have next : p + 4 + op.opSz = (before ++ op.host).length := by
      rw [List.length_append,WireOp.host_length,start,Nat.add_assoc]
    have later : first + 8 ≤ (before ++ op.host ++ ops.flatMap WireOp.wire).length := by
      simp only [List.length_append,WireOp.host_length,WireOp.wire_length] at enough ⊢
      omega
    obtain ⟨after,rest,all⟩ := ih (before ++ op.host) (fun op member => formed op (List.mem_cons_of_mem _ member))
      (fun op member => plain op (List.mem_cons_of_mem _ member)) next (.inl later) mid
    refine ⟨after,?_,.cons searched all⟩
    rw [List.length_cons,parseOpsSearch,if_neg (Nat.not_lt.mpr enough)]
    apply bind_given swapped
    apply bind_given found
    apply bind_given host.next
    rw [← List.append_assoc]
    exact rest

/-! ### Where values are put -/

variable {op : WireOp} {ops : List WireOp} {values after : List ClBin} {bin : ClBin} {name : BinName} {i j : Nat}

theorem Searched.names (searched : Searched op values after) :
    after.map ClBin.binName = values.map ClBin.binName := by
  induction searched with
  | absent => rfl
  | here value values o begins held => rfl
  | there value values after other rest ih => rw [List.map_cons,List.map_cons,ih]

/-- A bin behind one that is found, or with another name, stays as it is. -/
theorem Searched.other (searched : Searched op values after) (found : values[i]? = some bin)
    (passed : ¬op.name <+: bin.binName.str ∨ ∃ j < i, ∃ u, values[j]? = some u ∧ op.name <+: u.binName.str) :
    after[i]? = some bin := by
  induction searched generalizing i with
  | absent => exact found
  | here value values o begins held =>
    cases i with
    | succ i => exact found
    | zero =>
      obtain rfl := Option.some.inj found
      rcases passed with different | ⟨j,less,_⟩
      · exact absurd begins different
      · exact absurd less (Nat.not_lt_zero j)
  | there value values after other rest ih =>
    cases i with
    | zero => exact found
    | succ i =>
      refine ih found (passed.imp_right ?_)
      rintro ⟨j,less,u,before,begins⟩
      cases j with
      | zero =>
        obtain rfl := Option.some.inj before
        exact absurd begins other
      | succ j => exact ⟨j,Nat.lt_of_succ_lt_succ less,u,before,begins⟩

/-- The first bin that is found is filled. -/
theorem Searched.hit (searched : Searched op values after) (found : values[i]? = some bin)
    (begins : op.name <+: bin.binName.str) (first : ∀ j < i, ∀ u, values[j]? = some u → ¬op.name <+: u.binName.str) :
    ∃ o, op.Held o ∧ after[i]? = some {bin with object := o} := by
  induction searched generalizing i with
  | absent => cases found
  | here value values o begins' held =>
    cases i with
    | zero =>
      obtain rfl := Option.some.inj found
      exact ⟨o,held,rfl⟩
    | succ i => exact absurd begins' (first 0 (Nat.succ_pos i) value rfl)
  | there value values after other rest ih =>
    cases i with
    | zero =>
      obtain rfl := Option.some.inj found
      exact absurd begins other
    | succ i => exact ih found fun j less u before => first (j + 1) (Nat.succ_lt_succ less) u before

/-- Before the bin of that name stands another whose name begins with it. -/
def LongerNameBefore (names : List BinName) (name : CString) : Prop :=
  ∃ i j : Nat, i < j ∧ names[j]?.map BinName.str = some name ∧ ∃ u : BinName, names[i]? = some u ∧ name <+: u.str

/-- A response that names some of the bins, each once. -/
structure Requested (names : List BinName) (ops : List WireOp) : Prop where
  formed : ∀ op ∈ ops, op.WellFormed
  once : (ops.map WireOp.name).Nodup
  members : ∀ op ∈ ops, op.name ∈ names.map BinName.str

/-- Each bin that the response names holds what the operation of exactly that name says, and each
other one is unchanged. -/
def InPlace (ops : List WireOp) (bins after : List ClBin) : Prop :=
  after.length = bins.length ∧ ∀ (i : Nat) (bin : ClBin), bins[i]? = some bin →
    (∀ op ∈ ops, op.name = bin.binName.str → ∃ o, op.Held o ∧ after[i]? = some {bin with object := o}) ∧
    ((∀ op ∈ ops, op.name ≠ bin.binName.str) → after[i]? = some bin)

theorem bin_name_at {bins : List ClBin} (found : bins[i]? = some bin) :
    (bins.map ClBin.binName)[i]? = some bin.binName := by
  rw [List.getElem?_map,found,Option.map_some]

/-- An operation leaves the bins of other names. -/
theorem Searched.kept (searched : Searched op values after)
    (member : op.name ∈ (values.map ClBin.binName).map BinName.str)
    (free : ¬LongerNameBefore (values.map ClBin.binName) op.name) (found : values[i]? = some bin)
    (different : op.name ≠ bin.binName.str) : after[i]? = some bin := by
  refine searched.other found ?_
  by_cases begins : op.name <+: bin.binName.str
  · refine .inr ?_
    obtain ⟨j,own⟩ := List.mem_iff_getElem?.mp member
    rw [List.getElem?_map,List.getElem?_map,Option.map_map] at own
    obtain ⟨u,there,name⟩ := Option.map_eq_some_iff.mp own
    rcases Nat.lt_trichotomy j i with less | same | more
    · exact ⟨j,less,u,there,by rw [← name]; exact List.prefix_refl _⟩
    · subst same
      obtain rfl := Option.some.inj (found.symm.trans there)
      exact absurd name.symm different
    · refine absurd ⟨i,j,more,?_,bin.binName,bin_name_at found,begins⟩ free
      rw [bin_name_at there]
      exact congrArg some name
  · exact .inl begins

theorem SearchedAll.length (all : SearchedAll ops values after) : after.length = values.length := by
  induction all with
  | nil values => rfl
  | cons first rest ih =>
    have size := congrArg List.length first.names
    rw [List.length_map,List.length_map] at size
    exact ih.trans size

theorem SearchedAll.kept (all : SearchedAll ops values after)
    (members : ∀ op ∈ ops, op.name ∈ (values.map ClBin.binName).map BinName.str)
    (free : ∀ op ∈ ops, ¬LongerNameBefore (values.map ClBin.binName) op.name) (found : values[i]? = some bin)
    (different : ∀ op ∈ ops, op.name ≠ bin.binName.str) : after[i]? = some bin := by
  induction all with
  | nil values => exact found
  | cons first rest ih =>
    have mid := first.kept (members _ List.mem_cons_self) (free _ List.mem_cons_self) found
      (different _ List.mem_cons_self)
    have names := first.names
    refine ih ?_ ?_ mid fun op member => different op (List.mem_cons_of_mem _ member)
    · exact fun op member => names ▸ members op (List.mem_cons_of_mem _ member)
    · exact fun op member => names ▸ free op (List.mem_cons_of_mem _ member)

theorem SearchedAll.filled (all : SearchedAll ops values after)
    (once : (ops.map WireOp.name).Nodup)
    (members : ∀ op ∈ ops, op.name ∈ (values.map ClBin.binName).map BinName.str)
    (free : ∀ op ∈ ops, ¬LongerNameBefore (values.map ClBin.binName) op.name) (found : values[i]? = some bin)
    (op : WireOp) (member : op ∈ ops) (named : op.name = bin.binName.str) :
    ∃ o, op.Held o ∧ after[i]? = some {bin with object := o} := by
  induction all with
  | nil values => cases member
  | @cons head ops values mid after first rest ih =>
    rw [List.map_cons,List.nodup_cons] at once
    have names := first.names
    have laterMembers : ∀ op ∈ ops, op.name ∈ (mid.map ClBin.binName).map BinName.str :=
      fun op later => names ▸ members op (List.mem_cons_of_mem _ later)
    have laterFree : ∀ op ∈ ops, ¬LongerNameBefore (mid.map ClBin.binName) op.name :=
      fun op later => names ▸ free op (List.mem_cons_of_mem _ later)
    rcases List.mem_cons.mp member with rfl | later
    · -- nothing before the bin has a name that begins with its own
      obtain ⟨o,held,hit⟩ := first.hit found (by rw [named]) fun j less u before begins => by
        refine free op List.mem_cons_self ⟨j,i,less,?_,u.binName,bin_name_at before,begins⟩
        rw [bin_name_at found,named]
        rfl
      refine ⟨o,held,rest.kept laterMembers laterFree hit fun other inside same => ?_⟩
      have twice : other.name ∈ ops.map WireOp.name := List.mem_map_of_mem inside
      exact once.1 (named ▸ same ▸ twice)
    · have apart : head.name ≠ bin.binName.str := fun same =>
        once.1 (same ▸ named ▸ List.mem_map_of_mem later)
      have still := first.kept (members _ List.mem_cons_self) (free _ List.mem_cons_self) found apart
      exact ih once.2 laterMembers laterFree still later

/-- A bin behind one with a longer name is never filled. -/
theorem SearchedAll.hidden (all : SearchedAll ops values after) (found : values[j]? = some bin) (less : i < j)
    (before : (values.map ClBin.binName)[i]? = some name) (begins : bin.binName.str <+: name.str) :
    after[j]? = some bin := by
  induction all with
  | nil values => exact found
  | cons first rest ih =>
    rename_i op ops values mid after
    have names := first.names
    refine ih (first.other found ?_) (names ▸ before)
    by_cases starts : op.name <+: bin.binName.str
    · rw [List.getElem?_map] at before
      obtain ⟨u,there,rfl⟩ := Option.map_eq_some_iff.mp before
      exact .inr ⟨i,less,u,there,starts.trans begins⟩
    · exact .inl starts

theorem clParse_response {heap : Heap} (plenty : Plenty heap.malloc) {msg : ClMsg} {fields : List (UInt8 × List UInt8)}
    (nFields : msg.nFields.toNat = fields.length) (nOps : msg.nOps.toNat = ops.length)
    (fieldsFormed : ∀ field ∈ fields, ResponseField field) (formed : ∀ op ∈ ops, op.WellFormed)
    (plain : ∀ op ∈ ops, (0 : UInt8) ∉ op.name) (operations tridR setnameR : Bool) (few : ops.length ≤ values.length) :
    ∃ parsed after, clParse heap msg (responseBytes fields ops) ⟨some ⟨operations,values⟩,tridR,setnameR⟩ = some parsed ∧
      parsed.rv = 0 ∧ parsed.values = some ⟨operations,after⟩ ∧ SearchedAll ops values after := by
  obtain ⟨s,mid,read,ended,left⟩ := parseFields_at (s := ⟨responseBytes fields ops,0,none,none⟩)
    ⟨some ⟨operations,values⟩,tridR,setnameR⟩ [] (ops.flatMap WireOp.wire) fields fieldsFormed rfl rfl
  rw [List.nil_append] at ended left
  have room : s.mf + 8 ≤ (mid ++ ops.flatMap WireOp.wire).length ∨ ops = [] := by
    cases ops with
    | nil => exact .inr rfl
    | cons op ops =>
      refine .inl ?_
      rw [ended,List.length_append,List.flatMap_cons,List.length_append,WireOp.wire_length,WireOp.opSz]
      omega
  obtain ⟨after,found,all⟩ := parseOpsSearch_at plenty mid ops formed plain ended room values
  refine ⟨⟨0,some ⟨operations,after⟩,s.trid,s.setname⟩,after,?_,rfl,rfl,all⟩
  rw [clParse,nFields]
  have done : parseOps heap msg.nOps.toNat ⟨operations,values⟩ s.buf s.mf = some (0,⟨operations,after⟩) := by
    rw [parseOps,nOps,left,if_neg (Nat.not_lt.mpr few)]
    exact bind_given found rfl
  apply bind_given read
  dsimp only
  rw [if_neg (not_not.mpr rfl)]
  exact bind_given done rfl

/-- Whatever the bins held before, a response puts each value into its own bin exactly if no bin
stands behind another whose name begins with a name of the response. -/
theorem values_in_place_iff {heap : Heap} (plenty : Plenty heap.malloc) (names : List BinName) (ops : List WireOp)
    (requested : Requested names ops) (few : ops.length ≤ names.length) (msg : ClMsg) (fields : List (UInt8 × List UInt8))
    (fieldsFormed : ∀ field ∈ fields, ResponseField field) (nFields : msg.nFields.toNat = fields.length)
    (nOps : msg.nOps.toNat = ops.length) (operations tridR setnameR : Bool) :
    (∀ bins, bins.map ClBin.binName = names → ∃ parsed after,
      clParse heap msg (responseBytes fields ops) ⟨some ⟨operations,bins⟩,tridR,setnameR⟩ = some parsed ∧
        parsed.rv = 0 ∧ parsed.values = some ⟨operations,after⟩ ∧ InPlace ops bins after) ↔
      ∀ op ∈ ops, ¬LongerNameBefore names op.name := by
  have plain : ∀ op ∈ ops, (0 : UInt8) ∉ op.name := by
    intro op member
    obtain ⟨name,_,same⟩ := List.mem_map.mp (requested.members op member)
    rw [← same]
    exact name.str_plain
  constructor
  · rintro placed op member ⟨i,j,less,own,longer,before,begins⟩
    -- bins that hold no value of the operation's type
    let other := if op.particleType.toUInt32 = clNull then clInt else clNull
    let bins := names.map fun name => (⟨name,⟨other,0,.i64 0⟩⟩ : ClBin)
    have same : bins.map ClBin.binName = names := by simp [bins,Function.comp_def]
    have enough : ops.length ≤ bins.length := by simpa [bins] using few
    obtain ⟨parsed,after,read,_,held,inPlace⟩ := placed bins same
    obtain ⟨parsed',after',read',_,held',all⟩ := clParse_response plenty nFields nOps fieldsFormed requested.formed plain
      operations tridR setnameR enough
    obtain rfl := Option.some.inj (read'.symm.trans read)
    obtain rfl : after' = after := (Values.mk.inj (Option.some.inj (held'.symm.trans held))).2
    obtain ⟨name,there,named⟩ := Option.map_eq_some_iff.mp own
    have found : bins[j]? = some ⟨name,⟨other,0,.i64 0⟩⟩ := by simp [bins,there]
    have hidden := all.hidden found less (same ▸ before) (named ▸ begins)
    obtain ⟨o,view,filled⟩ := (inPlace.2 j _ found).1 op member named.symm
    obtain rfl : o = ⟨other,0,.i64 0⟩ := by
      have object := congrArg ClBin.object (Option.some.inj (filled.symm.trans hidden))
      exact object
    have type : op.view.type = op.particleType.toUInt32 := by
      rw [WireOp.view]
      split
      · rename_i null
        exact null.symm
      · split
        · rename_i int
          exact int.symm
        · rfl
    have wrong : op.particleType.toUInt32 = other := type.symm.trans (congrArg BinView.type view)
    by_cases null : op.particleType.toUInt32 = clNull
    · rw [show other = clInt from if_pos null,null] at wrong
      exact absurd wrong (by decide)
    · exact null (wrong.trans (if_neg null))
  · rintro free bins rfl
    have enough : ops.length ≤ bins.length := by simpa using few
    obtain ⟨parsed,after,read,rv,held,all⟩ := clParse_response plenty nFields nOps fieldsFormed requested.formed plain
      operations tridR setnameR enough
    refine ⟨parsed,after,read,rv,held,all.length,fun i bin found => ⟨fun op member named => ?_,fun different => ?_⟩⟩
    · exact all.filled requested.once requested.members free found op member named
    · exact all.kept requested.members free found different

theorem values_in_place_iff_sample :
    (∀ bins, bins.map ClBin.binName = [⟨[97,98] ++ List.replicate 30 0,rfl⟩,⟨[97,98,99] ++ List.replicate 29 0,rfl⟩] →
      ∃ parsed after, clParse ⟨fun _ => some 1,fun _ => ⟨⟨List.replicate 32 0,rfl⟩,⟨clNull,0,.i64 0⟩⟩⟩
        ⟨22,0,0,0,0,0,0,0,0,0,1⟩ (responseBytes [] [⟨1,1,0,[97,98],[5]⟩]) ⟨some ⟨false,bins⟩,false,false⟩ = some parsed ∧
        parsed.rv = 0 ∧ parsed.values = some ⟨false,after⟩ ∧ InPlace [⟨1,1,0,[97,98],[5]⟩] bins after) ↔
      ∀ op ∈ [(⟨1,1,0,[97,98],[5]⟩ : WireOp)], ¬LongerNameBefore
        [⟨[97,98] ++ List.replicate 30 0,rfl⟩,⟨[97,98,99] ++ List.replicate 29 0,rfl⟩] op.name := by
  have formed : WireOp.WellFormed ⟨1,1,0,[97,98],[5]⟩ :=
    ⟨by decide,.inr (.inl rfl),fun _ => by decide,by decide⟩
  apply values_in_place_iff (fun _ => ⟨1,rfl⟩) _ _ ⟨?_,by decide,?_⟩ (by decide) _ _ ?_ rfl rfl
  · intro op member
    rw [List.mem_singleton.mp member]
    exact formed
  · intro op member
    rw [List.mem_singleton.mp member]
    decide
  · exact fun field member => absurd member List.not_mem_nil

/-- The value of `ab` goes to `abc`, which stands before it. -/
theorem longer_name_filled :
    clParse ⟨fun _ => some 1,fun _ => ⟨⟨List.replicate 32 0,rfl⟩,⟨clNull,0,.i64 0⟩⟩⟩ ⟨22,0,0,0,0,0,0,0,0,0,1⟩
        (responseBytes [] [⟨1,1,0,[97,98],[5]⟩])
        ⟨some ⟨false,[⟨⟨[97,98,99] ++ List.replicate 29 0,rfl⟩,⟨clNull,0,.i64 0⟩⟩,
          ⟨⟨[97,98] ++ List.replicate 30 0,rfl⟩,⟨clNull,0,.i64 0⟩⟩]⟩,false,false⟩ =
      some ⟨0,some ⟨false,[⟨⟨[97,98,99] ++ List.replicate 29 0,rfl⟩,⟨clInt,8,.i64 5⟩⟩,
        ⟨⟨[97,98] ++ List.replicate 30 0,rfl⟩,⟨clNull,0,.i64 0⟩⟩]⟩,none,none⟩ ∧
    ¬InPlace [⟨1,1,0,[97,98],[5]⟩]
      [⟨⟨[97,98,99] ++ List.replicate 29 0,rfl⟩,⟨clNull,0,.i64 0⟩⟩,⟨⟨[97,98] ++ List.replicate 30 0,rfl⟩,⟨clNull,0,.i64 0⟩⟩]
      [⟨⟨[97,98,99] ++ List.replicate 29 0,rfl⟩,⟨clInt,8,.i64 5⟩⟩,⟨⟨[97,98] ++ List.replicate 30 0,rfl⟩,⟨clNull,0,.i64 0⟩⟩] := by
  refine ⟨rfl,fun place => ?_⟩
  obtain ⟨o,held,same⟩ := (place.2 1 _ rfl).1 ⟨1,1,0,[97,98],[5]⟩ (List.mem_singleton.mpr rfl) (by decide)
  obtain rfl : ⟨clNull,0,.i64 0⟩ = o := congrArg ClBin.object (Option.some.inj same)
  exact absurd held (by rw [WireOp.Held]; decide)

end Citrusleaf
