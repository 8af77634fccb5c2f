import Mathlib.Tactic.SplitIfs
import Citrusleaf.Text

/-! The replies that cl_request.c reads: lines of a name, a tab and a value. -/
namespace Citrusleaf

/-- `get_name_value` on one line: every tab ends the name and starts the value again, and
a line without a tab has the empty value at its end. -/
def nameValue (line : CString) : CString × CString :=
  (line.takeWhile fun c => c != 9,
    if (9 : UInt8) ∈ line then (line.reverse.takeWhile fun c => c != 9).reverse else [])

/-- The loop on `get_name_value` over a whole reply. -/
def nameValues (values : CString) : List (CString × CString) := (strSplit 10 values).map nameValue

/-- `cl_request_n_partitions` on the reply of `citrusleaf_info_host`. -/
def clRequestNPartitions (values : CString) : Int :=
  (nameValues values).foldl (fun nPartitions (name,value) =>
    if name = text "partitions" then atoi value else nPartitions) 0

/-- `cl_strncpy` into `len` bytes. -/
def clStrncpy (src : CString) (len : Nat) : CString := src.take (len - 1)

def nodeNameSize : Nat := 20

/-- `cl_node_info` without the buffer that the replies are read into. -/
structure ClNodeInfo where
  nodeName : CString
  /-- The null pointer when no line gave the services. -/
  services : Option CString
  partitionGeneration : UInt32
  deriving DecidableEq

/-- One lap of the loop in `cl_request_node_info`. -/
def nodeInfoPair (nodeInfo : ClNodeInfo) (pair : CString × CString) : ClNodeInfo :=
  let (name,value) := pair
  if name = text "node" then {nodeInfo with nodeName := clStrncpy value nodeNameSize}
  else if name = text "partition-generation" then
    {nodeInfo with partitionGeneration := UInt32.ofInt (atoi value)}
  else if name = text "services" then {nodeInfo with services := some value}
  else nodeInfo

/-- `cl_request_node_info` on the reply of `citrusleaf_info_host_limit`. -/
def clRequestNodeInfo (values : CString) : ClNodeInfo :=
  (nameValues values).foldl nodeInfoPair ⟨[],none,0⟩

@[simp] theorem clStrncpy_clStrncpy (src : CString) (len : Nat) :
    clStrncpy (clStrncpy src len) len = clStrncpy src len := by
  simp [clStrncpy,List.take_take]

/-- A name in the node information fits its array. -/
theorem clRequestNodeInfo_nodeName (values : CString) :
    clStrncpy (clRequestNodeInfo values).nodeName nodeNameSize = (clRequestNodeInfo values).nodeName := by
  have fits (pairs : List (CString × CString)) (nodeInfo : ClNodeInfo)
      (short : clStrncpy nodeInfo.nodeName nodeNameSize = nodeInfo.nodeName) :
      clStrncpy (pairs.foldl nodeInfoPair nodeInfo).nodeName nodeNameSize =
        (pairs.foldl nodeInfoPair nodeInfo).nodeName := by
    induction pairs generalizing nodeInfo with
    | nil => exact short
    | cons pair pairs ih =>
      obtain ⟨name,value⟩ := pair
      refine ih _ ?_
      simp only [nodeInfoPair]
      split_ifs <;> simp [short]
  exact fits _ _ rfl

end Citrusleaf
