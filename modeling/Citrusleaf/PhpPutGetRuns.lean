import Citrusleaf.PhpPutGet

/-! From a value of the application over the bytes of a request to the record of the server. -/
namespace Citrusleaf.PhpClient
open Lib FullMonte

/-! ### What a call sends -/

theorem cString_plain (block : List UInt8) : (0 : UInt8) ∉ cString block := by
  intro member
  have holds := List.mem_takeWhile_imp member
  simp at holds

theorem decimalInt_plain (z : Int) : (0 : UInt8) ∉ decimalInt z := by
  have digits (n : Nat) : (0 : UInt8) ∉ decimal n := by
    rw [decimal_eq]
    intro member
    obtain ⟨c,digit,same⟩ := List.mem_map.mp member
    obtain ⟨least,_,byte⟩ := digit_byte (Nat.isDigit_of_mem_toDigits (by decide) (by decide) digit)
    rw [same] at byte
    have zero : (0 : UInt8).toNat = 0 := rfl
    omega
  unfold decimalInt
  split
  · exact fun member => (List.mem_cons.mp member).elim (by decide) (digits _)
  · exact digits _

theorem ArrayKey.plain (key : ArrayKey) : (0 : UInt8) ∉ key.chars := by
  cases key with
  | string key => exact cString_plain key
  | long index => exact decimalInt_plain _

theorem PutCall.plain (call : PutCall) (value : CString × Zval) (member : value ∈ call.values) : (0 : UInt8) ∉ value.1 := by
  unfold PutCall.values at member
  cases method : call.method with
  | put val =>
    rw [method] at member
    rw [List.mem_singleton.mp member]
    exact call.clo.bin.plain
  | putmany vals =>
    rw [method] at member
    obtain ⟨val,_,rfl⟩ := List.mem_map.mp member
    exact val.1.plain

/-- A bin that was filled from a name and a value. -/
def Filled (value : CString × Zval) (bin : ClBin) : Prop :=
  bin.binName.str = value.1 ∧ value.1.length ≤ 31 ∧ ∃ o, zvalToCitrusleafObject value.2 o = some bin.object

theorem forall₂_right {R : α → β → Prop} {as : List α} {bs : List β} {b : β} (all : List.Forall₂ R as bs) (member : b ∈ bs) :
    ∃ a ∈ as, R a b := by
  induction all with
  | nil => exact absurd member List.not_mem_nil
  | cons first rest ih =>
    rcases List.mem_cons.mp member with rfl | later
    · exact ⟨_,List.mem_cons_self,first⟩
    · obtain ⟨a,present,holds⟩ := ih later
      exact ⟨a,List.mem_cons_of_mem _ present,holds⟩

theorem fillValues_filled {garbage : Nat → ClBin} {values : List (CString × Zval)} {bins : List ClBin}
    (plain : ∀ value ∈ values, (0 : UInt8) ∉ value.1) (filled : fillValues garbage values = some (some bins)) :
    List.Forall₂ Filled values bins := by
  induction values generalizing garbage bins with
  | nil =>
    obtain rfl := Option.some.inj (Option.some.inj filled)
    exact .nil
  | cons value values ih =>
    obtain ⟨name,z⟩ := value
    rw [fillValues] at filled
    cases named : (garbage 0).binName.set name with
    | none => simp [named] at filled
    | some binName =>
      cases converted : zvalToCitrusleafObject z (garbage 0).object with
      | none => simp [named,converted] at filled
      | some object =>
        simp only [named,converted,Option.bind_eq_bind,Option.bind_some,Option.bind_eq_some_iff,Option.pure_def,
          Option.some.injEq] at filled
        obtain ⟨rest,later,made⟩ := filled
        obtain ⟨others,rfl,rfl⟩ := Option.map_eq_some_iff.mp made
        have str := BinName.str_set (plain (name,z) List.mem_cons_self) named
        have short := (BinName.set_isSome _ name).mp (by rw [named]; rfl)
        exact .cons ⟨str,Nat.le_of_lt_succ short,_,converted⟩ (ih (fun value member => plain value (List.mem_cons_of_mem _ member)) later)

/-- A request for the record of a key. -/
structure Request.Names (request : Request) (clo : CitrusleafObject) (oKey : ClObject) : Prop where
  ns : request.args.ns = some clo.ns.chars
  set : request.args.set = some clo.set.chars
  key : request.args.key = some oKey
  digest : request.args.digest = none
  trid : request.args.trid = 0
  scanParamField : request.args.scanParamField = none

/-- A request that was made from a key and values. -/
structure Request.Puts (request : Request) (clo : CitrusleafObject) (key : Zval) (oKey0 oKey : ClObject)
    (values : List (CString × Zval)) (bins : List ClBin) : Prop where
  names : request.Names clo oKey
  ops : request.args.values.ops = bins.map fun bin => ⟨bin,.write⟩
  converted : zvalToCitrusleafObject key oKey0 = some oKey
  notNull : oKey.type ≠ clNull
  filled : List.Forall₂ Filled values bins

/-- `put` and `putmany` return without a request and not OK, or send one for all values. -/
theorem putValues_cases {clo : CitrusleafObject} {frame : PutFrame} {key : Zval} {values : List (CString × Zval)}
    {clWP : WriteParameters} {call : PhpCall} {initialized : Bool} (plain : ∀ value ∈ values, (0 : UInt8) ∉ value.1)
    (called : putValues initialized clo frame key values clWP = some call) :
    (∃ value, call = .returned value ∧ value ≠ .long .ok) ∨
      ∃ request oKey bins, call = .sends request ∧ request.Puts clo key frame.oKey oKey values bins := by
  unfold putValues at called
  cases converted : zvalToCitrusleafObject key frame.oKey with
  | none =>
    rw [converted] at called
    exact .inl ⟨_,(Option.some.inj called).symm,nofun⟩
  | some oKey =>
    rw [converted] at called
    dsimp only at called
    split at called
    · exact .inl ⟨_,(Option.some.inj called).symm,nofun⟩
    · rename_i notNull
      cases filled : fillValues frame.values values with
      | none => simp [filled] at called
      | some outcome =>
        cases outcome with
        | none =>
          simp only [filled,Option.bind_eq_bind,Option.bind_some,Option.pure_def,Option.some.injEq] at called
          exact .inl ⟨_,called.symm,nofun⟩
        | some bins =>
          simp only [filled,Option.bind_eq_bind,Option.bind_some,Option.pure_def,Option.some.injEq] at called
          unfold citrusleafPut at called
          cases initialized with
          | false => exact .inl ⟨_,called.symm,by decide⟩
          | true =>
            exact .inr ⟨_,oKey,bins,called.symm,⟨rfl,rfl,rfl,rfl,rfl,rfl⟩,rfl,converted,notNull,fillValues_filled plain filled⟩

theorem PutCall.php_cases {call : PutCall} {outcome : PhpCall} (called : call.php = some outcome) :
    (∃ value, outcome = .returned value ∧ value ≠ .long .ok) ∨
      ∃ request oKey bins, outcome = .sends request ∧ request.Puts call.clo call.key call.frame.oKey oKey call.values bins := by
  have plain := call.plain
  unfold PutCall.php at called
  unfold PutCall.values at plain ⊢
  cases method : call.method with
  | put val =>
    simp only [method] at called plain
    exact putValues_cases plain called
  | putmany vals =>
    simp only [method] at called plain
    exact putValues_cases plain called

variable {call : PutCall} {request : Request}

theorem PutCall.puts (sent : call.php = some (.sends request)) :
    ∃ oKey bins, request.Puts call.clo call.key call.frame.oKey oKey call.values bins := by
  rcases PutCall.php_cases sent with ⟨value,returned,_⟩ | ⟨_,oKey,bins,same,puts⟩
  · cases returned
  · cases same
    exact ⟨oKey,bins,puts⟩

/-- A call that returns OK has sent a request. -/
theorem PutCall.ReturnsOk.sends (ok : call.ReturnsOk) : ∃ request, call.php = some (.sends request) := by
  obtain ⟨outcome,called,value⟩ := Option.map_eq_some_iff.mp ok
  rcases PutCall.php_cases called with ⟨_,rfl,other⟩ | ⟨request,_,_,rfl,_⟩
  · exact absurd value other
  · exact ⟨request,called⟩

/-! ### Records -/

/-- The field of a key by its stored value. -/
def storedKey : UInt32 × ObjectValue → List UInt8
  | (type,.null) => [type.toUInt8]
  | (type,.int i) => type.toUInt8 :: beBytes 8 i.toUInt64.toNat
  | (type,.bytes bytes) => type.toUInt8 :: bytes

def recordFields (ns set : CString) (key : List UInt8) : List (UInt8 × List UInt8) :=
  [(clMsgFieldTypeNamespace,ns),(clMsgFieldTypeSet,set),(clMsgFieldTypeKey,key)]

theorem Request.Names.fields (names : request.Names clo oKey) :
    request.args.fields = recordFields clo.ns.chars clo.set.chars (oKey.type.toUInt8 :: oKey.wireValue) := by
  simp [CompileArgs.fields,CompileArgs.tridData,CompileArgs.scanData,CompileArgs.keyData,CompileArgs.digestData,
    names.ns,names.set,names.key,names.digest,names.trid,names.scanParamField,present,recordFields]

theorem copy_whole (address : UInt64) (bytes : List UInt8) : ClUnion.copy bytes.length (.ptr address bytes) = some bytes := by
  have read := readBytes_at [] bytes [] (p := 0) rfl rfl
  rwa [List.nil_append,List.append_nil] at read

theorem converted_stored (converted : zvalToCitrusleafObject z o = some object) :
    ∃ value, object.value = some value ∧ z.stored = some (object.type,value) := by
  cases z with
  | null =>
    obtain rfl := Option.some.inj converted
    exact ⟨.null,rfl,rfl⟩
  | bool value =>
    obtain rfl := Option.some.inj converted
    exact ⟨_,rfl,rfl⟩
  | long value =>
    obtain rfl := Option.some.inj converted
    exact ⟨_,rfl,rfl⟩
  | string address chars =>
    obtain rfl := Option.some.inj converted
    refine ⟨.bytes chars,?_,rfl⟩
    change (ClUnion.copy chars.length (.ptr address chars)).map ObjectValue.bytes = _
    rw [copy_whole,Option.map_some]
  | serialized address bytes =>
    obtain rfl := Option.some.inj converted
    refine ⟨.bytes bytes,?_,rfl⟩
    change (ClUnion.copy bytes.length (.ptr address bytes)).map ObjectValue.bytes = _
    rw [copy_whole,Option.map_some]
  | other type => cases converted

/-- What is stored for a value, by its type. -/
inductive StoredValue : UInt32 × ObjectValue → Prop where
  | null : StoredValue (clNull,.null)
  | int (i : Int64) : StoredValue (clInt,.int i)
  | str (chars : List UInt8) : StoredValue (clStr,.bytes chars)
  | phpBlob (bytes : List UInt8) : StoredValue (clPhpBlob,.bytes bytes)

theorem Zval.storedValue {z : Zval} (stored : z.stored = some held) : StoredValue held := by
  cases z with
  | other type => cases stored
  | _ =>
    obtain rfl := Option.some.inj stored
    constructor

/-- Different values have different fields. -/
theorem storedKey_injective (one : StoredValue a) (other : StoredValue b) (same : storedKey a = storedKey b) : a = b := by
  cases one with
  | null =>
    cases other with
    | null => rfl
    | _ => exact absurd (List.cons.inj same).1 (by decide)
  | int i =>
    cases other with
    | int j =>
      have bytes := congrArg beNat (List.cons.inj same).2
      rw [beNat_beBytes_of_lt i.toUInt64.toNat_lt,beNat_beBytes_of_lt j.toUInt64.toNat_lt] at bytes
      rw [← Int64.toInt64_toUInt64 i,UInt64.toNat.inj bytes,Int64.toInt64_toUInt64]
    | _ => exact absurd (List.cons.inj same).1 (by decide)
  | str chars =>
    cases other with
    | str more => rw [(List.cons.inj same).2]
    | _ => exact absurd (List.cons.inj same).1 (by decide)
  | phpBlob bytes =>
    cases other with
    | phpBlob more => rw [(List.cons.inj same).2]
    | _ => exact absurd (List.cons.inj same).1 (by decide)

theorem converted_key (converted : zvalToCitrusleafObject z o = some object) (notNull : object.type ≠ clNull) :
    ∃ held, z.stored = some held ∧ object.type.toUInt8 :: object.wireValue = storedKey held := by
  obtain ⟨value,own,stored⟩ := converted_stored converted
  refine ⟨_,stored,?_⟩
  have typed := Zval.storedValue stored
  unfold ClObject.value at own
  unfold ClObject.wireValue
  rw [if_neg notNull] at own ⊢
  split at own
  · rename_i int
    obtain rfl := Option.some.inj own
    rw [if_pos int]
    rfl
  · rename_i notInt
    obtain ⟨bytes,copied,rfl⟩ := Option.map_eq_some_iff.mp own
    rw [if_neg notInt,copied]
    rfl

/-- The requests of two clients have the same fields exactly if they name one record. -/
theorem recordFields_iff (clo other : CitrusleafObject) {key otherKey : Zval} (converted : zvalToCitrusleafObject key o = some oKey)
    (notNull : oKey.type ≠ clNull) (converted' : zvalToCitrusleafObject otherKey o' = some oKey') (notNull' : oKey'.type ≠ clNull) :
    recordFields clo.ns.chars clo.set.chars (oKey.type.toUInt8 :: oKey.wireValue) =
        recordFields other.ns.chars other.set.chars (oKey'.type.toUInt8 :: oKey'.wireValue) ↔
      clo.ns.chars = other.ns.chars ∧ clo.set.chars = other.set.chars ∧ key.stored = otherKey.stored := by
  obtain ⟨held,stored,wire⟩ := converted_key converted notNull
  obtain ⟨held',stored',wire'⟩ := converted_key converted' notNull'
  rw [wire,wire',stored,stored']
  constructor
  · intro same
    simp only [recordFields,List.cons.injEq,Prod.mk.injEq,true_and,and_true] at same
    exact ⟨same.1,same.2.1,congrArg some (storedKey_injective (Zval.storedValue stored) (Zval.storedValue stored') same.2.2)⟩
  · rintro ⟨ns,set,key⟩
    rw [ns,set,Option.some.inj key]

/-- What a bin holds after writes. -/
def heldAfter (values : List (CString × Zval)) (name : CString) (held : Option (UInt32 × ObjectValue)) :
    Option (UInt32 × ObjectValue) :=
  values.foldl (fun held value => if value.1 = name then value.2.stored else held) held

theorem serve_writes (filled : List.Forall₂ Filled values bins) (record : TypedRecord) (name : CString) :
    record.serve ((bins.map fun bin => (⟨bin,.write⟩ : ClOperation)).map ClOperation.view) name =
      heldAfter values name (record name) := by
  induction filled generalizing record with
  | nil => rfl
  | @cons value bin values bins first rest ih =>
    obtain ⟨str,_,o,converted⟩ := first
    obtain ⟨held,own,stored⟩ := converted_stored converted
    rw [List.map_cons,List.map_cons,TypedRecord.serve,List.foldl_cons,← TypedRecord.serve,ih]
    change heldAfter values name _ = heldAfter values name (if value.1 = name then value.2.stored else record name)
    congr 1
    change (if name = bin.binName.str ∧ (2 : UInt8) = 2 then bin.object.value.map fun held => (bin.object.type,held)
      else record name) = _
    rw [str,own,stored]
    by_cases same : value.1 = name
    · rw [if_pos ⟨same.symm,rfl⟩,if_pos same]
      rfl
    · rw [if_neg fun both => same both.1.symm,if_neg same]

theorem heldAfter_append (first later : List (CString × Zval)) (name : CString) (held : Option (UInt32 × ObjectValue)) :
    heldAfter (first ++ later) name held = heldAfter later name (heldAfter first name held) := List.foldl_append

/-- The last write wins, or there is none. -/
theorem heldAfter_cases (values : List (CString × Zval)) (name : CString) :
    (∀ held, heldAfter values name held = held) ∨ ∀ held other, heldAfter values name held = heldAfter values name other := by
  induction values with
  | nil => exact .inl fun _ => rfl
  | cons value values ih =>
    rcases ih with none | last
    · by_cases same : value.1 = name
      · refine .inr fun held other => ?_
        change heldAfter values name (if value.1 = name then _ else held) = heldAfter values name (if value.1 = name then _ else other)
        rw [if_pos same,if_pos same]
      · refine .inl fun held => ?_
        change heldAfter values name (if value.1 = name then _ else held) = held
        rw [if_neg same,none]
    · exact .inr fun held other => last _ _

/-- Writes that are served again change nothing more. -/
theorem heldAfter_again (values : List (CString × Zval)) (name : CString) (held : Option (UInt32 × ObjectValue)) :
    heldAfter values name (heldAfter values name held) = heldAfter values name held := by
  rcases heldAfter_cases values name with none | last
  · exact none _
  · exact last _ _

/-! ### The server after a run -/

/-- Such a request is one `cl_compile` accepts. -/
theorem PutCall.sendable (sent : call.php = some (.sends request)) (fits : call.Fits) : request.args.Sendable := by
  obtain ⟨oKey,bins,⟨names,ops,converted,notNull,filled⟩⟩ := PutCall.puts sent
  obtain ⟨made,own,type⟩ := zval_initialised converted
  have nsShort := call.clo.ns.short
  have setShort := call.clo.set.short
  have length := filled.length_eq
  refine CompileArgs.Accepted.sendable ⟨?_,?_,?_,?_,?_,?_⟩ ⟨?_,?_⟩
  · intro given same
    rw [names.ns] at same
    obtain rfl := Option.some.inj same
    omega
  · intro given same
    rw [names.set] at same
    obtain rfl := Option.some.inj same
    omega
  · intro given same
    rw [names.key] at same
    obtain rfl := Option.some.inj same
    exact ⟨made,type.resolve_left notNull,fits.keySz _ converted⟩
  · intro operation member
    rw [ops] at member
    obtain ⟨bin,present,rfl⟩ := List.mem_map.mp member
    obtain ⟨value,given,name,short,o,object⟩ := forall₂_right filled present
    obtain ⟨valueMade,_,valueType⟩ := zval_initialised object
    have size := fits.values value given o _ object
    rw [← name] at short size
    refine ⟨short,valueMade,?_,nofun,nofun,size⟩
    rcases valueType with null | str | int | blob
    · exact .inl null
    · exact .inr (.inr (.inl str))
    · exact .inr (.inl int)
    · exact .inr (.inr (.inr blob))
  · rw [ops,List.length_map,← length]
    exact fits.count
  · exact fits.total request sent
  · intro given same
    rw [names.key] at same
    obtain rfl := Option.some.inj same
    exact own
  · intro operation member
    rw [ops] at member
    obtain ⟨bin,present,rfl⟩ := List.mem_map.mp member
    obtain ⟨_,_,_,_,_,object⟩ := forall₂_right filled present
    exact (zval_initialised object).2.1

/-- What the server makes of the buffer of a request. -/
theorem receive_sendable {heap : Heap} (plenty : Plenty heap.malloc) (sendable : request.args.Sendable) :
    ∃ buf, clCompile request.args = some (0,buf) ∧ ∀ store : Store, store.receive heap buf = some fun fields =>
      if fields = request.args.fields then (store fields).serve request.ops else store fields := by
  obtain ⟨buf,decoded,compiled,read,_,_,_,fields,ops⟩ := roundTrips_of_sendable plenty sendable
  refine ⟨buf,compiled,fun store => ?_⟩
  rw [Store.receive,read,Option.map_some,fields,ops]
  rfl

/-- The values that a call brings to a record. -/
def PutCall.landed (call : PutCall) (fields : List (UInt8 × List UInt8)) : List (CString × Zval) :=
  match call.php with
  | some (.sends request) => if call.received ≠ 0 ∧ request.args.fields = fields then call.values else []
  | _ => []

theorem putStep_held {heap : Heap} (plenty : Plenty heap.malloc) (fits : call.Fits) (store : Store)
    (fields : List (UInt8 × List UInt8)) (name : CString) :
    putStep heap store call fields name = heldAfter (call.landed fields) name (store fields name) := by
  unfold putStep PutCall.landed
  cases sent : call.php with
  | none => rfl
  | some outcome =>
    cases outcome with
    | returned value => rfl
    | sends request =>
      obtain ⟨oKey,bins,puts⟩ := PutCall.puts sent
      obtain ⟨buf,compiled,receives⟩ := receive_sendable plenty (PutCall.sendable sent fits)
      dsimp only
      rw [compiled]
      dsimp only
      rw [if_pos rfl]
      have once (store : Store) : ((store.receive heap buf).getD store) fields name =
          if request.args.fields = fields then heldAfter call.values name (store fields name) else store fields name := by
        rw [receives,Option.getD_some]
        by_cases here : request.args.fields = fields
        · rw [if_pos here.symm,if_pos here,Request.ops,puts.ops]
          exact serve_writes puts.filled _ _
        · rw [if_neg (Ne.symm here),if_neg here]
      induction call.received with
      | zero => rfl
      | succ received ih =>
        rw [Function.iterate_succ_apply',once,ih]
        by_cases here : request.args.fields = fields
        · by_cases none : received = 0
          · simp [here,none,heldAfter]
          · simp [here,none,heldAfter_again]
        · simp [here,heldAfter]

/-- The records after calls. -/
theorem putRun_held {heap : Heap} (plenty : Plenty heap.malloc) {calls : List PutCall} (fits : ∀ call ∈ calls, call.Fits)
    (store : Store) (fields : List (UInt8 × List UInt8)) (name : CString) :
    run (putStep heap) store calls fields name = heldAfter (calls.flatMap (PutCall.landed · fields)) name (store fields name) := by
  induction calls generalizing store with
  | nil => rfl
  | cons call calls ih =>
    rw [run_cons,ih (fun call member => fits call (List.mem_cons_of_mem _ member)),
      putStep_held plenty (fits call List.mem_cons_self),List.flatMap_cons,heldAfter_append]

theorem heldAfter_last (values : List (CString × Zval)) (name : CString) :
    heldAfter values name none = (lastOf values name).bind Zval.stored := by
  have general (held : Option Zval) : heldAfter values name (held.bind Zval.stored) =
      (values.foldl (fun held value => if value.1 = name then some value.2 else held) held).bind Zval.stored := by
    induction values generalizing held with
    | nil => rfl
    | cons value values ih =>
      rw [List.foldl_cons,← ih]
      change heldAfter values name (if value.1 = name then _ else _) = _
      by_cases same : value.1 = name
      · rw [if_pos same,if_pos same]
        rfl
      · rw [if_neg same,if_neg same]
  exact general none

theorem lastOf_mem {values : List (CString × Zval)} (last : lastOf values name = some z) : (name,z) ∈ values := by
  have general (held : Option Zval) (values : List (CString × Zval))
      (last : values.foldl (fun held value => if value.1 = name then some value.2 else held) held = some z) :
      held = some z ∨ (name,z) ∈ values := by
    induction values generalizing held with
    | nil => exact .inl last
    | cons value values ih =>
      rw [List.foldl_cons] at last
      rcases ih _ last with now | later
      · by_cases same : value.1 = name
        · rw [if_pos same] at now
          obtain rfl := Option.some.inj now
          exact .inr (List.mem_cons.mpr (.inl (by rw [← same])))
        · rw [if_neg same] at now
          exact .inl now
      · exact .inr (List.mem_cons_of_mem _ later)
  exact (general none values last).resolve_left nofun

end Citrusleaf.PhpClient
