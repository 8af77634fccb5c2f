import Citrusleaf.Lib.Runs
import Citrusleaf.Replicas
import Citrusleaf.ShmNodes

/-! How `cluster_tend` finds the nodes of a cluster: the addresses of the registered hosts
and those that nodes announce as services are asked for their node names. One tender runs
at a time; hosts are registered and the follow flag is set in between. -/
namespace Citrusleaf.Discovery
open Lib Shm

abbrev InAddr := Vector UInt8 4

/-- `htons`, with the port cut to a `short`. -/
def htons (port : Int) : Vector UInt8 2 :=
  let bits := BitVec.ofInt 16 port
  #v[(bits.toNat / 256).toUInt8,bits.toNat.toUInt8]

/-- The `struct sockaddr_in` that `cl_lookup` fills in, of the family `AF_INET`. -/
def sockaddrIn (addr : InAddr) (port : Int) : SockaddrIn :=
  let family : Vector UInt8 2 := #v[2,0]
  let zero : Vector UInt8 8 := Vector.replicate 8 0
  (family ++ htons port ++ addr ++ zero : Vector UInt8 (2 + 2 + 4 + 8))

/-- `cf_vector_append_unique` -/
def appendUnique (v : List SockaddrIn) (addr : SockaddrIn) : List SockaddrIn :=
  if v.any fun other => other = addr then v else v ++ [addr]

/-- "Find if there is an alternate address that should be used for this hostname." -/
def alternate (hostAddrMapV : List (CString × CString)) (hostname : CString) : CString :=
  ((hostAddrMapV.find? fun map => map.1 = hostname).map Prod.snd).getD hostname

/-- How `gethostbyname2_r` answers in the end; `none` is every failure. -/
abbrev Resolver := CString → Option (List InAddr)

def clLookup (hostAddrMapV : List (CString × CString)) (resolver : Resolver) (hostname : CString) (port : Int)
    (sockaddrInV : List SockaddrIn) : Int × List SockaddrIn :=
  match resolver (alternate hostAddrMapV hostname) with
  | none => (-1,sockaddrInV)
  | some addrList => (0,(addrList.map fun addr => sockaddrIn addr port).foldl appendUnique sockaddrInV)

def clusterServicesParse (hostAddrMapV : List (CString × CString)) (resolver : Resolver) (services : CString)
    (sockaddrInV : List SockaddrIn) : List SockaddrIn :=
  (strSplit 59 services).foldl (fun v hostStr =>
    match strSplit 58 hostStr with
    | [hostS,portS] => (clLookup hostAddrMapV resolver hostS (atoi portS) v).2
    | _ => v) sockaddrInV

/-- The services texts that `cl_cluster_node_parse_check` comes to: it leaves at a changed node name. -/
def checkServices (nodeName : CString) : List (CString × CString) → List CString
  | [] => []
  | (name,value) :: pairs =>
    if name = text "node" then if value = nodeName then checkServices nodeName pairs else []
    else if name = text "services" then value :: checkServices nodeName pairs
    else checkServices nodeName pairs

/-- What `cl_get_node_name` gets: the name in the shared memory, or the reply to its request. -/
inductive NodeNameReply where
  | failed
  | shared (nodeName : CString)
  | values (text : CString)

/-- `cl_request_node_name` on the reply. -/
def clRequestNodeName (values : CString) : CString :=
  (nameValues values).foldl (fun nodeName pair =>
    if pair.1 = text "node" then clStrncpy pair.2 nodeNameSize else nodeName) []

def clGetNodeName : NodeNameReply → Option CString
  | .failed => none
  | .shared nodeName => some (clStrncpy nodeName nodeNameSize)
  | .values text => some (clRequestNodeName text)

/-- What `cluster_ping_node` gets: no reply, the text in the shared memory, or the reply to the check. -/
inductive PingReply where
  | unreachable
  | shared (services : CString)
  | values (rbuf : CString)

/-- The world as one tend sees it. -/
structure Network where
  resolver : Resolver
  nodeName : SockaddrIn → NodeNameReply
  /-- Memory for a new node at this address. -/
  malloc : SockaddrIn → Bool
  /-- `cl_partition_table_is_node_present` -/
  present : CString → Bool
  ping : CString → PingReply

structure ClClusterNode where
  name : CString
  sockaddrInV : List SockaddrIn
  intervalsAbsent : Nat

structure ClCluster where
  /-- `host_str_v` and `host_port_v` -/
  hosts : List (CString × Int)
  hostAddrMapV : List (CString × CString)
  nodeV : List ClClusterNode
  follow : Bool
  foundAll : Bool
  /-- The addresses of the hosts, while `CLS_TENDER_RUNNING` is set. -/
  tender : Option (List SockaddrIn)

def citrusleafClusterCreate : ClCluster := ⟨[],[],[],true,false,none⟩

def clClusterNodeGetByaddr (nodeV : List ClClusterNode) (saIn : SockaddrIn) : Option ClClusterNode :=
  nodeV.find? fun cn => cn.sockaddrInV.any fun other => other = saIn

/-- `cl_cluster_node_get_byname`, as an index into `node_v`. -/
def clClusterNodeGetByname (nodeV : List ClClusterNode) (name : CString) : Option Nat :=
  nodeV.findIdx? fun cn => cn.name = name

def clusterPingAddress (net : Network) (nodeV : List ClClusterNode) (saIn : SockaddrIn) : List ClClusterNode :=
  match clGetNodeName (net.nodeName saIn) with
  | none => nodeV
  | some nodeName =>
    match clClusterNodeGetByname nodeV nodeName with
    | none => if net.malloc saIn then nodeV ++ [⟨nodeName,[saIn],0⟩] else nodeV
    | some i => nodeV.modify i fun cn => {cn with sockaddrInV := appendUnique cn.sockaddrInV saIn}

/-- The loops that explore what is new; `nNew` counts the pings. -/
def exploreNew (net : Network) (nodeV : List ClClusterNode) (nNew : Nat) : List SockaddrIn → List ClClusterNode × Nat
  | [] => (nodeV,nNew)
  | sin :: sockaddrInV =>
    if (clClusterNodeGetByaddr nodeV sin).isNone then
      exploreNew net (clusterPingAddress net nodeV sin) (nNew + 1) sockaddrInV
    else exploreNew net nodeV nNew sockaddrInV

/-- `cluster_ping_node`, as far as the services go. -/
def clusterPingNode (hostAddrMapV : List (CString × CString)) (net : Network) (name : CString)
    (servicesV : List SockaddrIn) : List SockaddrIn :=
  match net.ping name with
  | .unreachable => servicesV
  | .shared services => clusterServicesParse hostAddrMapV net.resolver services servicesV
  | .values rbuf => (checkServices name (Replicas.infoPairs rbuf)).foldl (fun v services =>
      clusterServicesParse hostAddrMapV net.resolver services v) servicesV

def maxIntervalsAbsent : Nat := 1

/-- "Now, ping known nodes to see if there's an update." -/
def pingNodes (hostAddrMapV : List (CString × CString)) (net : Network) (servicesV : List SockaddrIn) :
    List ClClusterNode → List ClClusterNode × List SockaddrIn
  | [] => ([],servicesV)
  | cn :: nodeV =>
    let stays (intervalsAbsent : Nat) :=
      let servicesV := cn.sockaddrInV.foldl appendUnique (clusterPingNode hostAddrMapV net cn.name servicesV)
      let (nodeV,servicesV) := pingNodes hostAddrMapV net servicesV nodeV
      ({cn with intervalsAbsent} :: nodeV,servicesV)
    if cn.intervalsAbsent = 0 ∨ net.present cn.name = true then stays 1
    else if cn.intervalsAbsent > maxIntervalsAbsent then pingNodes hostAddrMapV net servicesV nodeV
    else stays (cn.intervalsAbsent + 1)

namespace ClCluster

/-- "For all registered hosts --- resolve into the cluster's sockaddr_in list" -/
def lookupHosts (s : ClCluster) (resolver : Resolver) : List SockaddrIn :=
  s.hosts.foldl (fun v host => (clLookup s.hostAddrMapV resolver host.1 host.2 v).2) []

/-- `cluster_tend` until it has read the hosts. A second tender leaves at once. -/
def tendHosts (s : ClCluster) (net : Network) : ClCluster :=
  match s.tender with
  | some _ => s
  | none => {s with tender := some (s.lookupHosts net.resolver)}

/-- The rest of `cluster_tend`. -/
def tendNodes (s : ClCluster) (net : Network) : ClCluster :=
  match s.tender with
  | none => s
  | some sockaddrInV =>
    let (nodeV,_) := exploreNew net s.nodeV 0 sockaddrInV
    let (nodeV,servicesV) := pingNodes s.hostAddrMapV net [] nodeV
    if s.follow then
      let (nodeV,nNew) := exploreNew net nodeV 0 servicesV
      {s with nodeV,foundAll := s.foundAll || nNew == 0,tender := none}
    else {s with nodeV,tender := none}

def clusterTend (s : ClCluster) (net : Network) : ClCluster := (s.tendHosts net).tendNodes net

/-- `citrusleaf_cluster_add_addr_map` -/
def citrusleafClusterAddAddrMap (s : ClCluster) (orig alt : CString) : ClCluster :=
  match s.hostAddrMapV.findIdx? fun map => map.1 = orig with
  | some i => {s with hostAddrMapV := s.hostAddrMapV.modify i fun oldmap => (oldmap.1,alt)}
  | none => {s with hostAddrMapV := s.hostAddrMapV ++ [(orig,alt)]}

/-- "Mark the cluster not fully discovered." -/
def registerHost (s : ClCluster) (host : CString) (port : Int) : ClCluster :=
  {s with hosts := s.hosts ++ [(host,port)],foundAll := false}

/-- The loop of `citrusleaf_cluster_add_host`, with the world as each lap finds it, for as many laps as the
timeout allows. -/
def settleLoop (s : ClCluster) : List Network → ClCluster
  | [] => s
  | net :: nets =>
    let s := if s.foundAll then s else s.clusterTend net
    if s.foundAll then s else s.settleLoop nets

def citrusleafClusterAddHost (s : ClCluster) (net : Network) (nets : List Network) (host : CString) (port : Int) :
    Int × ClCluster :=
  if s.hosts.any fun listed => listed = (host,port) then (0,s)
  else
    let (rv,sockaddrInV) := clLookup s.hostAddrMapV net.resolver host port []
    if rv ≠ 0 then (-1,s)
    else
      let s := ((s.registerHost host port).clusterTend net).settleLoop nets
      let reacheable := sockaddrInV.any fun sin => (clClusterNodeGetByaddr s.nodeV sin).isSome
      (if reacheable then 0 else -2,s)

end ClCluster

/-- What happens to a cluster, in any order. -/
inductive ClusterEvent where
  | tendHosts (net : Network)
  | tendNodes (net : Network)
  | registerHost (host : CString) (port : Int)
  | addAddrMap (orig alt : CString)
  | follow (flag : Bool)

def clusterStep (s : ClCluster) : ClusterEvent → ClCluster
  | .tendHosts net => s.tendHosts net
  | .tendNodes net => s.tendNodes net
  | .registerHost host port => s.registerHost host port
  | .addAddrMap orig alt => s.citrusleafClusterAddAddrMap orig alt
  | .follow flag => {s with follow := flag}

end Citrusleaf.Discovery
