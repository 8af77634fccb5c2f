import Citrusleaf.Lib.Runs
import Citrusleaf.Object
import Citrusleaf.WriteParameters

/-! Concurrent `put_index` calls on one index key. Each call reads the record, adds its
digest and writes the result under a guard; the transport sends a write again when its
response does not come. The server answers reads and applies guarded writes one at a time. -/
namespace Citrusleaf.PutIndex
open Lib

structure IndexRecord where
  count : Nat
  redirectId : List CfDigest
  deriving DecidableEq

/-- `record_is_new` -/
def recordIsNew (new : CfDigest) : Option IndexRecord → Bool
  | none => true
  | some old => (old.redirectId.take old.count).all (· != new)

/-- `create_record` -/
def createRecord (current : Option IndexRecord) (new : CfDigest) : IndexRecord :=
  match current with
  | none => ⟨1,[new]⟩
  | some old => ⟨old.count + 1,old.redirectId.take old.count ++ [new]⟩

/-- The size of a record, computed in a `uint`, is what is allocated for it. -/
def recordsSize (record : IndexRecord) : Nat := (8 + record.count * 20) % 2 ^ 32

/-- The copy into the allocated record stays inside it. -/
def blockHolds (record : IndexRecord) : Bool := 8 + record.count * 20 ≤ recordsSize record

inductive IndexObject where
  | clBlob (blob : IndexRecord)
  /-- An object of any other type. -/
  | other

structure IndexBin where
  binName : String
  object : IndexObject

/-- What `citrusleaf_get_all` returns. -/
inductive GetResult where
  | ok (indexClGen : UInt32) (indexBins : List IndexBin)
  | notFound
  /-- Timeout or any other code. -/
  | failed

/-- What `citrusleaf_put` returns. -/
inductive PutResult where
  | ok
  | failGeneration
  | failKeyExists
  | failed
  deriving DecidableEq

/-- Where a call of `put_index` is. -/
inductive Phase where
  /-- At `retry`, with `citrusleaf_get_all` next. -/
  | reading
  /-- In `citrusleaf_put`, after this many attempts. -/
  | writing (clWP : ClWriteParameters) (record : IndexRecord) (try_ : Nat)
  /-- Past the index step. -/
  | finished (indexUpdated : Bool)
  /-- In `create_record`, outside its block. -/
  | overrun

/-- The parameters on the stack before `cl_write_parameters_set_default`. -/
def unset : ClWriteParameters := ⟨false,false,false,false,false,0,0,0⟩

/-- Write a record that was just created. -/
def startPut (clWP : ClWriteParameters) (record : IndexRecord) : Phase :=
  if blockHolds record then .writing clWP record 0 else .overrun

/-- `put_index` from the result of its read to the call of `citrusleaf_put`. -/
def afterGet (newRecd : CfDigest) : GetResult → Phase
  | .ok indexClGen indexBins =>
    if indexClGen = 0 then .finished false
    else
      match indexBins with
      | [⟨binName,.clBlob oldRecord⟩] =>
        if binName ≠ "ir" then .finished false
        else if recordIsNew newRecd (some oldRecord) then
          startPut (clWriteParametersSetGeneration (clWriteParametersSetDefault unset) indexClGen)
            (createRecord (some oldRecord) newRecd)
        else .finished true
      | _ => .finished false
  | .notFound =>
    startPut {clWriteParametersSetDefault unset with unique := true} (createRecord none newRecd)
  | .failed => .finished false

/-- `put_index` from the result of its write on. -/
def afterPut (clWP : ClWriteParameters) (indexRv : PutResult) : Phase :=
  if indexRv = (if clWP.unique then .failKeyExists else .failGeneration) then .reading
  else .finished (indexRv == .ok)

/-! ### Calls, messages and the server -/

abbrev Call := Nat

/-- A write of the "ir" bin on its way to the server. -/
structure Request where
  call : Call
  try_ : Nat
  info2 : UInt32
  generation : UInt32
  record : IndexRecord

structure Response where
  call : Call
  try_ : Nat
  rv : PutResult

structure IndexState where
  /-- The stored 'ir' record and its generation. -/
  server : Option (UInt32 × IndexRecord)
  phase : Call → Phase
  requests : List Request
  responses : List Response

def IndexState.start : IndexState := ⟨none,fun _ => .reading,[],[]⟩

/-- The server applies a write under the guard its `info2` asks for. -/
def applies (server : Option (UInt32 × IndexRecord)) (r : Request) : Bool :=
  if r.info2 &&& clMsgInfo2WriteUnique ≠ 0 then server.isNone
  else if r.info2 &&& clMsgInfo2Generation ≠ 0 then server.map Prod.fst == some r.generation
  else true

/-- A generation the server may give the next version. -/
def follows (server : Option (UInt32 × IndexRecord)) (next : UInt32) : Bool :=
  match server with
  | none => 0 < next
  | some (generation,_) => generation < next

inductive IndexEvent where
  /-- The server answers the read of a call; its result is back when the call goes on. -/
  | read (call : Call)
  /-- The read ends in a timeout or another failure. -/
  | readFails (call : Call)
  /-- An attempt of a write is sent, the first one or after a lost response. -/
  | send (call : Call)
  /-- A write arrives; `next` is the generation of the version it makes. -/
  | arrive (i : Nat) (next : UInt32)
  | loseRequest (i : Nat)
  /-- The response to the latest attempt of a call arrives. -/
  | respond (i : Nat)
  /-- `citrusleaf_put` gives up with some other code. -/
  | putFails (call : Call)

variable (newRecd : Call → CfDigest)

def setPhase (s : IndexState) (call : Call) (phase : Phase) : IndexState :=
  {s with phase := fun other => if other = call then phase else s.phase other}

def getAll (server : Option (UInt32 × IndexRecord)) : GetResult :=
  match server with
  | none => .notFound
  | some (generation,record) => .ok generation [⟨"ir",.clBlob record⟩]

def indexStep (s : IndexState) : IndexEvent → IndexState
  | .read call =>
    match s.phase call with
    | .reading => setPhase s call (afterGet (newRecd call) (getAll s.server))
    | _ => s
  | .readFails call =>
    match s.phase call with
    | .reading => setPhase s call (afterGet (newRecd call) .failed)
    | _ => s
  | .send call =>
    match s.phase call with
    | .writing clWP record try_ =>
      let (info2,generation) := writeInfo2 clMsgInfo2Write (some clWP)
      {setPhase s call (.writing clWP record (try_ + 1)) with
        requests := s.requests ++ [⟨call,try_ + 1,info2,generation,record⟩]}
    | _ => s
  | .arrive i next =>
    match s.requests[i]? with
    | none => s
    | some r =>
      if applies s.server r then
        if follows s.server next then
          {s with
            server := some (next,r.record)
            requests := s.requests.eraseIdx i
            responses := ⟨r.call,r.try_,.ok⟩ :: s.responses}
        else s
      else
        let rv := if r.info2 &&& clMsgInfo2WriteUnique ≠ 0 then .failKeyExists else .failGeneration
        {s with
          requests := s.requests.eraseIdx i
          responses := ⟨r.call,r.try_,rv⟩ :: s.responses}
  | .loseRequest i => {s with requests := s.requests.eraseIdx i}
  | .respond i =>
    match s.responses[i]? with
    | none => s
    | some r =>
      match s.phase r.call with
      | .writing clWP _ try_ => if r.try_ = try_ then setPhase s r.call (afterPut clWP r.rv) else s
      | _ => s
  | .putFails call =>
    match s.phase call with
    | .writing clWP _ _ => setPhase s call (afterPut clWP .failed)
    | _ => s

end Citrusleaf.PutIndex
