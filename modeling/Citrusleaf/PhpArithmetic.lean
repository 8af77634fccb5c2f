import Citrusleaf.Lib.Runs
import Citrusleaf.RequestRoundTrip

/-! `CitrusleafClient::add` and `CitrusleafClient::subtract` of php_citrusleaf.c: the request
a call sends, and the bin after a run of calls whose requests the server applies. -/
namespace Citrusleaf.PhpClient
open Lib

/-! ### Values of the application -/

/-- A `zval`, by its type. -/
inductive Zval where
  | null
  | bool (value : Bool)
  | long (value : Int64)
  | string (address : UInt64) (chars : List UInt8)
  /-- A double, an array, an object or a resource: the copy of what `php_var_serialize` writes. -/
  | serialized (address : UInt64) (bytes : List UInt8)
  | other (type : UInt8)

def zvalSerializeToClObject (address : UInt64) (bytes : List UInt8) (o : ClObject) : ClObject :=
  {o with type := clPhpBlob,sz := bytes.length,u := .ptr address bytes}

/-- `none` is the return of -1. -/
def zvalToCitrusleafObject (z : Zval) (o : ClObject) : Option ClObject :=
  match z with
  | .null => some (citrusleafObjectInitNull o)
  | .bool value => some (citrusleafObjectInitInt o (if value then 1 else 0))
  | .long value => some (citrusleafObjectInitInt o value)
  | .string address chars => some (citrusleafObjectInitStr2 o address chars)
  | .serialized address bytes => some (zvalSerializeToClObject address bytes o)
  | .other _ => none

/-- `cl_result_codes_enum` -/
inductive ClResultCode where
  | ok | timeout | keyNotFoundError | parameterError | generationError | keyFoundError | binFoundError
  | failClient | unknown | failAsyncqFull | clusterKeyMismatch | partitionOutOfSpace | noXds
  | serverUnavailable | incompatibleType | recordTooBig | keyBusy | invalidApiParam
  deriving DecidableEq

/-- The codes from -3 to 14 are `cl_rv`. -/
def makePhpRv (rv : Int) : ClResultCode :=
  match rv with
  | 0 => .ok
  | 9 | -2 => .timeout
  | 2 => .keyNotFoundError
  | 4 => .parameterError
  | 3 => .generationError
  | 5 => .keyFoundError
  | 6 => .binFoundError
  | -1 => .failClient
  | 1 => .unknown
  | -3 => .failAsyncqFull
  | 7 => .clusterKeyMismatch
  | 8 => .partitionOutOfSpace
  | 10 => .noXds
  | 11 => .serverUnavailable
  | 12 => .incompatibleType
  | 13 => .recordTooBig
  | 14 => .keyBusy
  | _ => .unknown

/-- The values of `RETURN_LONG` and `RETURN_FALSE`. -/
inductive PhpReturn where
  | long (code : ClResultCode)
  | false
  deriving DecidableEq

/-! ### The client object -/

/-- A string in one of the 32-byte arrays of `citrusleaf_object`. -/
structure ClientName where
  chars : CString
  plain : (0 : UInt8) ∉ chars
  short : chars.length < 32

structure CitrusleafObject where
  ns : ClientName
  set : ClientName
  bin : ClientName
  timeout : Int32
  writepolicy : Int32

def clWriteRetry : Int32 := 2

/-- `cl_write_parameters` with its `w_pol`. -/
structure WriteParameters extends ClWriteParameters where
  wPol : Int32

def WriteParameters.setDefault (clWP : WriteParameters) : WriteParameters :=
  ⟨clWriteParametersSetDefault clWP.toClWriteParameters,clWriteRetry⟩

/-- What the stack holds when a method is entered. -/
structure Frame where
  oKey : ClObject
  bin : ClBin
  clWP : WriteParameters

/-! ### Requests -/

/-- What `do_the_full_monte` is called with. -/
structure Request where
  args : CompileArgs
  wPol : Int32

def clMsgInfo3Replace : UInt32 := 8

/-- The loop over the operations for the bits of `info1` and `info2`. -/
def operateInfo : UInt32 × UInt32 → List ClOperation → UInt32 × UInt32
  | info,[] => info
  | (info1,info2),operation :: operations =>
    let info := match operation.op with
      | .read => (clMsgInfo1Read,info2)
      | .other _ => (info1,info2)
      | _ => (info1,clMsgInfo2Write)
    if info.1 ≠ 0 ∧ info.2 ≠ 0 then info else operateInfo info operations

/-- An error is what the function returns before there is a request. -/
def citrusleafOperate (initialized : Bool) (ns set : CString) (key : ClObject) (operations : List ClOperation)
    (clWP : WriteParameters) (replace : Bool) : Except Int Request :=
  if initialized then
    let (info1,info2) := operateInfo (0,0) operations
    .ok ⟨{info1,info2,info3 := if replace then clMsgInfo3Replace else 0
          ns := some ns,set := some set,key := some key,digest := none
          values := .operations operations,clWP := some clWP.toClWriteParameters
          trid := 0,scanParamField := none},clWP.wPol⟩
  else .error (-1)

def citrusleafPut (initialized : Bool) (ns set : CString) (key : ClObject) (values : List ClBin)
    (clWP : WriteParameters) : Except Int Request :=
  if initialized then
    .ok ⟨{info1 := 0,info2 := clMsgInfo2Write,info3 := 0
          ns := some ns,set := some set,key := some key,digest := none
          values := .values values .write,clWP := some clWP.toClWriteParameters
          trid := 0,scanParamField := none},clWP.wPol⟩
  else .error (-1)

/-! ### The methods -/

inductive PhpCall where
  | returned (value : PhpReturn)
  | sends (request : Request)

def answer : Except Int Request → PhpCall
  | .error rv => .returned (.long (makePhpRv rv))
  | .ok request => .sends request

/-- What the method returns when `do_the_full_monte` returns `rv`. -/
def PhpCall.value (rv : Int) : PhpCall → PhpReturn
  | .returned value => value
  | .sends _ => .long (makePhpRv rv)

/-- The checks `add` and `subtract` make of a key and an integer, each with its own returns.
`none` is a name that does not fit. -/
def keyAndInteger (invalid unconverted : PhpReturn) (clo : CitrusleafObject) (frame : Frame) (args : List Zval)
    (send : ClObject → ClBin → Except Int Request) : Option PhpCall :=
  match args with
  | [keyZval,.long val] =>
    match zvalToCitrusleafObject keyZval frame.oKey with
    | none => some (.returned unconverted)
    | some oKey =>
      if oKey.type = clNull then some (.returned invalid)
      else do
        let binName ← frame.bin.binName.set clo.bin.chars
        match zvalToCitrusleafObject (.long val) frame.bin.object with
        | none => return .returned unconverted
        | some object => return answer (send oKey ⟨binName,object⟩)
  | _ => some (.returned invalid)

def clientAdd (initialized : Bool) (clo : CitrusleafObject) (frame : Frame) (args : List Zval) : Option PhpCall :=
  keyAndInteger (.long .invalidApiParam) (.long .unknown) clo frame args fun oKey bin =>
    let clWP := {frame.clWP.setDefault with timeoutMs := clo.timeout,wPol := clo.writepolicy}
    citrusleafOperate initialized clo.ns.chars clo.set.chars oKey [⟨bin,.incr⟩] clWP false

def clientSubtract (initialized : Bool) (clo : CitrusleafObject) (frame : Frame) (args : List Zval) : Option PhpCall :=
  keyAndInteger .false .false clo frame args fun oKey bin =>
    citrusleafPut initialized clo.ns.chars clo.set.chars oKey [bin] frame.clWP.setDefault

/-! ### What a call sends -/

/-- A name of the client object fits the bin and reads back. -/
theorem ClientName.copied (name : ClientName) (old : BinName) : ∃ new, old.set name.chars = some new ∧ new.str = name.chars := by
  obtain ⟨new,done⟩ := Option.isSome_iff_exists.mp ((old.set_isSome name.chars).mpr name.short)
  exact ⟨new,done,BinName.str_set name.plain done⟩

theorem makePhpRv_ok : makePhpRv rv = .ok ↔ rv = citrusleafOk := by
  constructor
  · intro mapped
    unfold makePhpRv at mapped
    split at mapped
    · rfl
    all_goals cases mapped
  · rintro rfl
    rfl

/-- A call that returns OK got past the checks: its key is converted, and the bin it hands on has
the name of the client object and the integer. -/
theorem keyAndInteger_ok (called : keyAndInteger invalid unconverted clo frame [key,.long val] send = some call)
    (ok : call.value rv = .long .ok) (invalidFails : invalid ≠ .long .ok) (unconvertedFails : unconverted ≠ .long .ok) :
    ∃ oKey bin, zvalToCitrusleafObject key frame.oKey = some oKey ∧ oKey.type ≠ clNull ∧
      bin.binName.str = clo.bin.chars ∧ bin.object = citrusleafObjectInitInt frame.bin.object val ∧
      call = answer (send oKey bin) := by
  simp only [keyAndInteger] at called
  split at called
  · obtain rfl := Option.some.inj called
    exact absurd ok unconvertedFails
  · rename_i oKey converted
    split at called
    · obtain rfl := Option.some.inj called
      exact absurd ok invalidFails
    · rename_i notNull
      obtain ⟨binName,done,name⟩ := clo.bin.copied frame.bin.binName
      simp only [done,zvalToCitrusleafObject,Option.bind_eq_bind,Option.bind_some,Option.pure_def,Option.some.injEq] at called
      exact ⟨oKey,⟨binName,_⟩,converted,notNull,name,rfl,called.symm⟩

/-! ### Runs of calls on one bin -/

inductive Method where
  | add | subtract
  deriving DecidableEq

/-- The operator the method asks the server for. -/
def Method.operator : Method → ClOperator
  | .add => .incr
  | .subtract => .write

/-- A call with an integer argument, in the surroundings it is made in. -/
structure Call where
  method : Method
  val : Int64
  initialized : Bool
  frame : Frame
  timeout : Int32
  writepolicy : Int32
  /-- The return of `do_the_full_monte`. -/
  rv : Int

/-- A record as the server keeps it, by bin name. -/
abbrev Record := CString → Option ObjectValue

/-- What a bin holds after an operation: code 2 writes, code 5 adds modulo 2^64. -/
def applied (op : OpView) (held : Option ObjectValue) : Option ObjectValue :=
  if op.op = 2 then op.value
  else if op.op = 5 then
    match op.value,held with
    | some (.int delta),some (.int value) => some (.int (value + delta))
    | _,_ => held
  else held

def Record.operate (record : Record) (op : OpView) : Record :=
  fun name => if name = op.name then applied op (record name) else record name

def Record.serve (record : Record) (ops : List OpView) : Record := ops.foldl Record.operate record

/-- The server applies what it reads from the buffer of a request. -/
def Record.receive (heap : Heap) (record : Record) (buf : List UInt8) : Option Record :=
  (decodeRequest heap buf).map fun decoded => record.serve (decoded.ops.map fun op => opView op.1 op.2)

def Request.ops (request : Request) : List OpView := request.args.values.ops.map ClOperation.view

/-- A request for one operation on a record. -/
structure Request.Asks (request : Request) (ns set : ClientName) (oKey : ClObject) (operation : ClOperation) : Prop where
  ns : request.args.ns = some ns.chars
  set : request.args.set = some set.chars
  key : request.args.key = some oKey
  digest : request.args.digest = none
  ops : request.args.values.ops = [operation]
  trid : request.args.trid = 0
  scanParamField : request.args.scanParamField = none

section
variable (clo : CitrusleafObject) (key : Zval)

def Call.php (call : Call) : Option PhpCall :=
  let clo := {clo with timeout := call.timeout,writepolicy := call.writepolicy}
  match call.method with
  | .add => clientAdd call.initialized clo call.frame [key,.long call.val]
  | .subtract => clientSubtract call.initialized clo call.frame [key,.long call.val]

def Call.ReturnsOk (call : Call) : Prop :=
  (call.php clo key).map (PhpCall.value call.rv) = some (.long .ok)

instance (call : Call) : Decidable (call.ReturnsOk clo key) := inferInstanceAs (Decidable (_ = _))

/-- The record after a call, whose request the server applies once. -/
def callStep (record : Record) (call : Call) : Record :=
  match call.php clo key with
  | some (.sends request) => record.serve request.ops
  | _ => record

end

variable {clo : CitrusleafObject} {key : Zval}

/-- Neither function sends before the library is initialised, and its own -1 is no OK. -/
theorem answer_ok {initialized : Bool} (ok : (answer (if initialized then .ok request else .error (-1))).value rv = .long .ok) :
    answer (if initialized then .ok request else .error (-1)) = .sends request := by
  cases initialized with
  | true => rfl
  | false =>
    have mapped : makePhpRv (-1) = .ok := PhpReturn.long.inj ok
    cases makePhpRv_ok.mp mapped

theorem clientAdd_ok {frame : Frame} (called : clientAdd initialized clo frame [key,.long val] = some call)
    (ok : call.value rv = .long .ok) :
    ∃ request oKey bin, call = .sends request ∧ request.Asks clo.ns clo.set oKey ⟨bin,.incr⟩ ∧
      zvalToCitrusleafObject key frame.oKey = some oKey ∧ oKey.type ≠ clNull ∧
      bin.binName.str = clo.bin.chars ∧ bin.object = citrusleafObjectInitInt frame.bin.object val := by
  unfold clientAdd at called
  obtain ⟨oKey,bin,converted,notNull,name,object,rfl⟩ := keyAndInteger_ok called ok nofun nofun
  exact ⟨_,oKey,bin,answer_ok ok,⟨rfl,rfl,rfl,rfl,rfl,rfl,rfl⟩,converted,notNull,name,object⟩

theorem clientSubtract_ok {frame : Frame} (called : clientSubtract initialized clo frame [key,.long val] = some call)
    (ok : call.value rv = .long .ok) :
    ∃ request oKey bin, call = .sends request ∧ request.Asks clo.ns clo.set oKey ⟨bin,.write⟩ ∧
      zvalToCitrusleafObject key frame.oKey = some oKey ∧ oKey.type ≠ clNull ∧
      bin.binName.str = clo.bin.chars ∧ bin.object = citrusleafObjectInitInt frame.bin.object val := by
  unfold clientSubtract at called
  obtain ⟨oKey,bin,converted,notNull,name,object,rfl⟩ := keyAndInteger_ok called ok nofun nofun
  exact ⟨_,oKey,bin,answer_ok ok,⟨rfl,rfl,rfl,rfl,rfl,rfl,rfl⟩,converted,notNull,name,object⟩

/-- A call that returns OK has sent one operation on its bin, with the operator of its method. -/
theorem Call.ReturnsOk.sends {call : Call} (ok : call.ReturnsOk clo key) :
    ∃ request oKey bin, call.php clo key = some (.sends request) ∧
      request.Asks clo.ns clo.set oKey ⟨bin,call.method.operator⟩ ∧
      zvalToCitrusleafObject key call.frame.oKey = some oKey ∧ oKey.type ≠ clNull ∧
      bin.binName.str = clo.bin.chars ∧ bin.object = citrusleafObjectInitInt call.frame.bin.object call.val := by
  obtain ⟨outcome,called,value⟩ := Option.map_eq_some_iff.mp ok
  rw [called]
  unfold Call.php at called
  cases method : call.method with
  | add =>
    rw [method] at called
    obtain ⟨request,oKey,bin,rfl,sent⟩ := clientAdd_ok called value
    exact ⟨request,oKey,bin,rfl,sent⟩
  | subtract =>
    rw [method] at called
    obtain ⟨request,oKey,bin,rfl,sent⟩ := clientSubtract_ok called value
    exact ⟨request,oKey,bin,rfl,sent⟩

/-- What a call leaves of the bin: `add` adds to it, `subtract` writes its argument. -/
def Call.result (value : Int64) (call : Call) : Int64 :=
  match call.method with
  | .add => value + call.val
  | .subtract => call.val

theorem int_view (bin : ClBin) (op : ClOperator) (o : ClObject) (object : bin.object = citrusleafObjectInitInt o val) :
    ClOperation.view ⟨bin,op⟩ = ⟨bin.binName.str,(clMsgOp op).getD 0,clInt,8,some (.int val)⟩ := by
  rw [ClOperation.view,opView,object]
  rfl

theorem callStep_bin {record : Record} {call : Call} (ok : call.ReturnsOk clo key)
    (held : record clo.bin.chars = some (.int value)) :
    callStep clo key record call clo.bin.chars = some (.int (call.result value)) := by
  obtain ⟨request,oKey,bin,sent,asks,_,_,name,object⟩ := ok.sends
  have ops : request.ops = [⟨clo.bin.chars,(clMsgOp call.method.operator).getD 0,clInt,8,some (.int call.val)⟩] := by
    rw [Request.ops,asks.ops,List.map_singleton,int_view bin _ _ object,name]
  simp only [callStep,sent,ops,Record.serve,List.foldl_cons,List.foldl_nil,Record.operate,held]
  unfold Call.result
  cases call.method <;> rfl

/-- Every other bin of the record is left alone. -/
theorem callStep_other {record : Record} {call : Call} (ok : call.ReturnsOk clo key) (other : name ≠ clo.bin.chars) :
    callStep clo key record call name = record name := by
  obtain ⟨request,oKey,bin,sent,asks,_,_,binName,_⟩ := ok.sends
  simp only [callStep,sent,Request.ops,asks.ops,List.map_singleton,Record.serve,List.foldl_cons,List.foldl_nil,Record.operate]
  rw [if_neg]
  rw [ClOperation.view,opView,binName]
  exact other

/-! ### On the wire -/

theorem zval_initialised (converted : zvalToCitrusleafObject z o = some object) :
    Initialised object ∧ object.OwnSize ∧
      (object.type = clNull ∨ object.type = clStr ∨ object.type = clInt ∨ isBlob object.type) := by
  cases z with
  | null =>
    obtain rfl := Option.some.inj converted
    exact ⟨.null o,⟨fun _ => rfl,nofun⟩,.inl rfl⟩
  | bool value =>
    obtain rfl := Option.some.inj converted
    exact ⟨.int o _,⟨nofun,fun _ => rfl⟩,.inr (.inr (.inl rfl))⟩
  | long value =>
    obtain rfl := Option.some.inj converted
    exact ⟨.int o value,⟨nofun,fun _ => rfl⟩,.inr (.inr (.inl rfl))⟩
  | string address chars =>
    obtain rfl := Option.some.inj converted
    exact ⟨.str2 o address chars,⟨nofun,nofun⟩,.inr (.inl rfl)⟩
  | serialized address bytes =>
    obtain rfl := Option.some.inj converted
    exact ⟨.blob2 o address bytes clPhpBlob,⟨nofun,nofun⟩,.inr (.inr (.inr rfl))⟩
  | other type => cases converted

theorem Method.listed (method : Method) : (∀ value, method.operator ≠ .other value) ∧ method.operator ≠ .mcIncr := by
  cases method <;> exact ⟨nofun,nofun⟩

/-- A request for an integer operation is one `cl_compile` accepts. -/
theorem Request.Asks.accepted {request : Request} {ns set : ClientName} {method : Method}
    (asks : request.Asks ns set oKey ⟨bin,method.operator⟩)
    (converted : zvalToCitrusleafObject key o = some oKey) (notNull : oKey.type ≠ clNull)
    (name : bin.binName.str.length ≤ 31) (object : bin.object = citrusleafObjectInitInt old val)
    (fits : oKey.sz + 2 < 2 ^ 32) : request.args.Accepted := by
  obtain ⟨made,_,type⟩ := zval_initialised converted
  have nsShort := ns.short
  have setShort := set.short
  refine ⟨?_,?_,?_,?_,?_,?_⟩
  · intro given same
    rw [asks.ns] at same
    obtain rfl := Option.some.inj same
    omega
  · intro given same
    rw [asks.set] at same
    obtain rfl := Option.some.inj same
    omega
  · intro given same
    rw [asks.key] at same
    obtain rfl := Option.some.inj same
    exact ⟨made,type.resolve_left notNull,fits⟩
  · intro operation member
    rw [asks.ops] at member
    obtain rfl := List.mem_singleton.mp member
    obtain ⟨listed,single⟩ := method.listed
    have sz : bin.object.sz = 8 := by rw [object]; rfl
    refine ⟨name,object ▸ .int old val,.inr (.inl (by rw [object]; rfl)),listed,single,?_⟩
    change 4 + bin.binName.str.length + bin.object.sz < 2 ^ 32
    omega
  · rw [asks.ops]
    exact Nat.le_of_lt (by decide : 1 < 65535)
  · intro msgSz given
    have size : clValueToOpGetSize bin = some 8 := by
      rw [clValueToOpGetSize,object]
      rfl
    simp only [CompileArgs.msgSz,CompileArgs.fieldsSize,asks.ops,asks.ns,asks.set,asks.key,asks.digest,asks.trid,
      asks.scanParamField,opsSize,size,Option.map_some,Option.getD_some,Option.bind_eq_bind,Option.bind_some,
      Option.pure_def,Option.some.injEq,Option.isSome_none,if_true,Bool.false_eq_true,
      if_false] at given
    have nsSz : stringSz ns.chars = ns.chars.length := by
      rw [stringSz,intStrlen_short (by omega),Option.getD_some]
    have setSz : stringSz set.chars = set.chars.length := by
      rw [stringSz,intStrlen_short (by omega),Option.getD_some]
    omega

/-- What the server reads from the buffer of a call is the operation the call asks for. -/
theorem call_received (heap : Heap) (plenty : Plenty heap.malloc) (record : Record) {call : Call}
    (ok : call.ReturnsOk clo key)
    (fits : ∀ oKey, zvalToCitrusleafObject key call.frame.oKey = some oKey → oKey.sz + 2 < 2 ^ 32) :
    ∃ request buf, call.php clo key = some (.sends request) ∧ clCompile request.args = some (0,buf) ∧
      record.receive heap buf = some (callStep clo key record call) := by
  obtain ⟨request,oKey,bin,sent,asks,converted,notNull,name,object⟩ := ok.sends
  have short : bin.binName.str.length ≤ 31 := by
    rw [name]
    exact Nat.le_of_lt_succ clo.bin.short
  have accepted := asks.accepted converted notNull short object (fits oKey converted)
  have own : request.args.OwnSizes := by
    constructor
    · intro given same
      rw [asks.key] at same
      obtain rfl := Option.some.inj same
      exact (zval_initialised converted).2.1
    · intro operation member
      rw [asks.ops] at member
      obtain rfl := List.mem_singleton.mp member
      exact object ▸ ⟨nofun,fun _ => rfl⟩
  obtain ⟨buf,decoded,compiled,read,_,_,_,_,ops⟩ := roundTrips_of_sendable plenty (accepted.sendable own)
  refine ⟨request,buf,sent,compiled,?_⟩
  simp only [Record.receive,read,Option.map_some,ops,callStep,sent,Request.ops]

/-! ### The bin after a run -/

/-- The sum of the arguments of a method. -/
def total (method : Method) (calls : List Call) : Int64 :=
  ((calls.filter (·.method = method)).map Call.val).sum

theorem total_nil (method : Method) : total method [] = 0 := rfl

theorem total_cons (method : Method) (call : Call) (calls : List Call) :
    total method (call :: calls) = (if call.method = method then call.val else 0) + total method calls := by
  rw [total,total,List.filter_cons]
  by_cases same : call.method = method
  · rw [if_pos (decide_eq_true same),if_pos same,List.map_cons,List.sum_cons]
  · rw [if_neg (by simpa using same),if_neg same,Int64.zero_add]

theorem total_append (method : Method) (first later : List Call) :
    total method (first ++ later) = total method first + total method later := by
  induction first with
  | nil => rw [List.nil_append,total_nil,Int64.zero_add]
  | cons call first ih => rw [List.cons_append,total_cons,total_cons,ih,Int64.add_assoc]

/-- Calls of `add` alone are arithmetic. -/
theorem run_adds (only : ∀ call ∈ calls, call.method = .add) (value : Int64) :
    run Call.result value calls = value + total .add calls ∧ total .subtract calls = 0 := by
  induction calls generalizing value with
  | nil => exact ⟨(Int64.add_zero value).symm,rfl⟩
  | cons call calls ih =>
    have adds := only call List.mem_cons_self
    obtain ⟨rest,none⟩ := ih (fun later member => only later (List.mem_cons_of_mem call member)) (call.result value)
    constructor
    · rw [run_cons,rest,total_cons,if_pos adds,Call.result,adds,Int64.add_assoc]
    · rw [total_cons,adds,if_neg nofun,none,Int64.zero_add]

/-- Only what follows the last subtraction is left of a run. -/
theorem run_last (subtracts : last.method = .subtract) (adds : ∀ call ∈ after, call.method = .add) (value : Int64) :
    run Call.result value (before ++ last :: after) = last.val + total .add after := by
  rw [run_append,run_cons,Call.result,subtracts]
  exact (run_adds adds last.val).1

theorem exact_iff_last (subtracts : last.method = .subtract) (adds : ∀ call ∈ after, call.method = .add)
    (value : Int64) :
    run Call.result value (before ++ last :: after) = value + total .add (before ++ last :: after) -
        total .subtract (before ++ last :: after) ↔
      last.val + last.val = value + total .add before - total .subtract before := by
  rw [run_last subtracts adds,total_append,total_append,total_cons,total_cons,subtracts,(run_adds adds value).2]
  rw [if_neg nofun,if_pos rfl]
  constructor <;> intro same <;> grind

/-- A run either adds only or has a last subtraction. -/
theorem adds_or_last (calls : List Call) :
    (∀ call ∈ calls, call.method = .add) ∨ ∃ before last after, calls = before ++ last :: after ∧
      last.method = .subtract ∧ ∀ call ∈ after, call.method = .add := by
  induction calls with
  | nil => exact .inl fun call member => absurd member List.not_mem_nil
  | cons call calls ih =>
    rcases ih with adds | ⟨before,last,after,rfl,rest⟩
    · cases method : call.method with
      | add => exact .inl (List.forall_mem_cons.mpr ⟨method,adds⟩)
      | subtract => exact .inr ⟨[],call,calls,rfl,method,adds⟩
    · exact .inr ⟨call :: before,last,after,rfl,rest⟩

/-- The record follows the value. -/
theorem run_bin {record : Record} (ok : ∀ call ∈ calls, call.ReturnsOk clo key)
    (held : record clo.bin.chars = some (.int value)) :
    run (callStep clo key) record calls clo.bin.chars = some (.int (run Call.result value calls)) := by
  induction calls generalizing record value with
  | nil => exact held
  | cons call calls ih =>
    have now := callStep_bin (ok call List.mem_cons_self) held
    exact ih (fun later member => ok later (List.mem_cons_of_mem call member)) now

theorem run_other {record : Record} (ok : ∀ call ∈ calls, call.ReturnsOk clo key) (other : name ≠ clo.bin.chars) :
    run (callStep clo key) record calls name = record name := by
  induction calls generalizing record with
  | nil => rfl
  | cons call calls ih =>
    rw [run_cons,ih fun later member => ok later (List.mem_cons_of_mem call member)]
    exact callStep_other (ok call List.mem_cons_self) other

/-- A run of calls adds and subtracts exactly when the last subtraction, which overwrites the
bin, writes what it should leave. -/
theorem add_subtract_exact (clo : CitrusleafObject) (key : Zval) (record : Record) (initial : Int64) (calls : List Call)
    (held : record clo.bin.chars = some (.int initial)) (ok : ∀ call ∈ calls, call.ReturnsOk clo key) :
    run (callStep clo key) record calls clo.bin.chars =
        some (.int (initial + total .add calls - total .subtract calls)) ↔
      ∀ before last after, calls = before ++ last :: after → last.method = .subtract →
        (∀ call ∈ after, call.method = .add) →
        last.val + last.val = initial + total .add before - total .subtract before := by
  rw [run_bin ok held,Option.some.injEq,ObjectValue.int.injEq]
  constructor
  · rintro law before last after rfl subtracts adds
    exact (exact_iff_last subtracts adds initial).mp law
  · intro twice
    rcases adds_or_last calls with adds | ⟨before,last,after,rfl,subtracts,adds⟩
    · obtain ⟨sum,none⟩ := run_adds adds initial
      rw [sum,none,Int64.sub_zero]
    · exact (exact_iff_last subtracts adds initial).mpr (twice before last after rfl subtracts adds)

/-- A client as `connect` leaves it, but for its set. -/
def sampleClient : CitrusleafObject :=
  ⟨⟨text "test",by decide,by decide⟩,⟨text "demo",by decide,by decide⟩,⟨text "binname",by decide,by decide⟩,
    1000,clWriteRetry⟩

def sampleFrame : Frame :=
  ⟨unsetObject,sampleBin unsetObject,⟨⟨false,false,false,false,false,0,0,0⟩,clWriteRetry⟩⟩

def sampleCall (method : Method) (val : Int64) : Call := ⟨method,val,true,sampleFrame,1000,clWriteRetry,citrusleafOk⟩

def sampleRecord : Record := fun _ => some (.int 10)

theorem add_subtract_exact_sample :
    run (callStep sampleClient (.long 7)) sampleRecord [sampleCall .add (-2),sampleCall .subtract 4]
      (text "binname") = some (.int (10 + -2 - 4)) := by
  refine (add_subtract_exact sampleClient (.long 7) sampleRecord 10 _ rfl (by decide)).mpr ?_
  intro before last after parts subtracts _
  rcases before with _ | ⟨first,_ | ⟨second,before⟩⟩
  · obtain ⟨rfl,_⟩ := List.cons.inj parts
    cases subtracts
  · obtain ⟨rfl,rest⟩ := List.cons.inj parts
    obtain ⟨rfl,_⟩ := List.cons.inj rest
    decide
  · simp at parts

/-- Three taken from ten leaves three. -/
theorem subtract_overwrites : ¬∀ (clo : CitrusleafObject) (key : Zval) (record : Record) (initial : Int64) (calls : List Call),
    record clo.bin.chars = some (.int initial) → (∀ call ∈ calls, call.ReturnsOk clo key) →
    run (callStep clo key) record calls clo.bin.chars =
      some (.int (initial + total .add calls - total .subtract calls)) := by
  intro law
  have outcome := law sampleClient (.long 7) sampleRecord 10 [sampleCall .subtract 3] rfl (by decide)
  have left : run (callStep sampleClient (.long 7)) sampleRecord [sampleCall .subtract 3] sampleClient.bin.chars =
      some (.int 3) := by decide
  rw [left] at outcome
  cases outcome

end Citrusleaf.PhpClient
