import Mathlib.Data.UInt

/-! `cl_write_parameters` and the header bits `cl_compile` derives from them. -/
namespace Citrusleaf

/-! ### The `CL_MSG_INFO` bits -/

def clMsgInfo1Read : UInt32 := 1
def clMsgInfo2Write : UInt32 := 1
def clMsgInfo2Generation : UInt32 := 4
def clMsgInfo2GenerationGt : UInt32 := 8
def clMsgInfo2GenerationDup : UInt32 := 16
def clMsgInfo2WriteUnique : UInt32 := 32
def clMsgInfo2WriteBinunique : UInt32 := 64

structure ClWriteParameters where
  unique : Bool
  uniqueBin : Bool
  useGeneration : Bool
  useGenerationGt : Bool
  useGenerationDup : Bool
  generation : UInt32
  timeoutMs : Int32
  recordTtl : UInt32
  deriving DecidableEq, Repr

/-- `cl_write_parameters_set_default`, which leaves the generation as it was. The write
policy it sets is `CL_WRITE_RETRY`. -/
def clWriteParametersSetDefault (clWP : ClWriteParameters) : ClWriteParameters :=
  {clWP with
    unique := false
    uniqueBin := false
    useGeneration := false
    useGenerationGt := false
    useGenerationDup := false
    timeoutMs := 0
    recordTtl := 0}

def clWriteParametersSetGeneration (clWP : ClWriteParameters) (generation : UInt32) : ClWriteParameters :=
  {clWP with generation,useGeneration := true}

/-- The `info2` and generation `cl_compile` sends: the first option set wins. -/
def writeInfo2 (info2 : UInt32) : Option ClWriteParameters → UInt32 × UInt32
  | none => (info2,0)
  | some clWP =>
    if clWP.unique then (info2 ||| clMsgInfo2WriteUnique,0)
    else if clWP.uniqueBin then (info2 ||| clMsgInfo2WriteBinunique,0)
    else if clWP.useGeneration then (info2 ||| clMsgInfo2Generation,clWP.generation)
    else if clWP.useGenerationGt then (info2 ||| clMsgInfo2GenerationGt,clWP.generation)
    else if clWP.useGenerationDup then (info2 ||| clMsgInfo2GenerationDup,clWP.generation)
    else (info2,0)

end Citrusleaf
