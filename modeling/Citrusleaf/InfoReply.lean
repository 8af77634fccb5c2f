import Citrusleaf.ShmNodes
import Citrusleaf.SocketRead
import Citrusleaf.Lib.Cells
import Citrusleaf.Lib.CStrings

/-! The text of an info reply in memory: `citrusleaf_info_host_limit` of cl_info.c, and what cl_request.c and
cl_shm.c read of it in place. A pointer into the text is an offset, and `none` stands for an access outside
it or through a null pointer. On texts the functions are those of ClRequest.lean. -/
namespace Citrusleaf.Info
open Lib Shm

/-! ### The body -/

/-- A read by `cf_socket_read_timeout` or `cf_socket_read_forever`: all that is wanted, or a failure. -/
structure BodyRead (want : Nat) where
  stream : List UInt8
  read : SocketRead
  reads : Reads stream want read

/-- How far a request gets, and the size in the header of its response. -/
inductive InfoReply where
  | noHeader
  | response (sz : Nat) (body : ∀ want, BodyRead want)

/-- A few bytes of a response above the limit are enough to see what it is. -/
def infoReadLength (maxResponseLength sz : Nat) : Nat :=
  if maxResponseLength > 0 ∧ sz > maxResponseLength then 100 else sz

/-- The return value and `*values`; a limit of zero is none. -/
def citrusleafInfoHostLimit (malloc : Malloc) (maxResponseLength : Nat) : InfoReply → Option (Int × Option (List UInt8))
  | .noHeader => some (-1,none)
  | .response sz body =>
    if sz = 0 then some (0,none)
    else
      let readLength := infoReadLength maxResponseLength sz
      match mallocBlock malloc (readLength + 1) with
      | none => some (-1,none)
      | some vBuf => do
        let vBuf ← writeBytes vBuf 0 (body readLength).read.buf
        if (body readLength).read.rv ≠ 0 then return (-1,none)
        let vBuf ← writeBytes vBuf readLength [0]
        if maxResponseLength > 0 ∧ sz > maxResponseLength then return (-1,none)
        return (0,some vBuf)

def citrusleafInfoHost (malloc : Malloc) (reply : InfoReply) : Option (Int × Option (List UInt8)) :=
  citrusleafInfoHostLimit malloc 0 reply

/-! ### The lines -/

/-- The inner loop of `get_name_value`, with as many bytes left in the block. -/
def scanLine (mem : List UInt8) (p : Nat) (value : Option Nat) : Nat → Option (List UInt8 × Nat × Option Nat)
  | 0 => none
  | left + 1 => do
    let c ← readByte mem p
    if c = 0 ∨ c = 10 then return (mem,p,value)
    else if c = 9 then scanLine (← writeBytes mem p [0]) (p + 1) (some (p + 1)) left
    else scanLine mem (p + 1) value left

/-- The text afterwards, and `name`, `value` and the returned pointer unless that is null. -/
def getNameValue (mem : List UInt8) (p : Nat) : Option (List UInt8 × Option (Nat × Nat × Nat)) := do
  if (← readByte mem p) = 0 then return (mem,none)
  let name := p
  let (mem,p,value) ← scanLine mem p none (mem.length - p)
  let value := value.getD p
  if (← readByte mem p) = 10 then return (← writeBytes mem p [0],some (name,value,p + 1))
  return (mem,some (name,value,p))

/-- The loop on `get_name_value`, with a bound on its laps. -/
def eachPair (lap : List UInt8 → σ → Nat → Nat → Option σ) (mem : List UInt8) (p : Nat) (s : σ) :
    Nat → Option (σ × List UInt8)
  | 0 => none
  | laps + 1 => do
    match ← getNameValue mem p with
    | (mem,none) => return (s,mem)
    | (mem,some (name,value,next)) => eachPair lap mem next (← lap mem s name value) laps

/-- A loop over a whole text moves on in every lap. -/
def overValues (lap : List UInt8 → σ → Nat → Nat → Option σ) (values : Option (List UInt8)) (s : σ) :
    Option (σ × List UInt8) := do
  let mem ← values
  eachPair lap mem 0 s (mem.length + 1)

/-- `cl_strncpy`, with so many bytes before the zero. -/
def strncpyAt (mem : List UInt8) (src : Nat) : Nat → Option CString
  | 0 => (readByte mem src).map fun _ => []
  | max + 1 => do
    let c ← readByte mem src
    if c = 0 then return []
    return c :: (← strncpyAt mem (src + 1) max)

/-! ### The requests -/

/-- `cl_node_info`: `services` points into `values`. -/
structure NodeInfo where
  nodeName : CString
  partitionGeneration : UInt32
  services : Option Nat

def nodeInfoLap (mem : List UInt8) (nodeInfo : NodeInfo) (name value : Nat) : Option NodeInfo := do
  let n ← textAt mem name
  if n = text "node" then return {nodeInfo with nodeName := ← strncpyAt mem value (nodeNameSize - 1)}
  else if n = text "partition-generation" then
    return {nodeInfo with partitionGeneration := UInt32.ofInt (atoi (← textAt mem value))}
  else if n = text "services" then return {nodeInfo with services := some value}
  else return nodeInfo

/-- The return value, and the fields with the text they point into. -/
def clRequestNodeInfo (malloc : Malloc) (reply : InfoReply) : Option (Int × NodeInfo × List UInt8) := do
  let (rv,values) ← citrusleafInfoHostLimit malloc 10000 reply
  if rv ≠ 0 then return (-1,⟨[],0,none⟩,[])
  return (0,← overValues nodeInfoLap values ⟨[],0,none⟩)

def nodeNameLap (mem : List UInt8) (nodeName : CString) (name value : Nat) : Option CString := do
  if (← textAt mem name) = text "node" then strncpyAt mem value (nodeNameSize - 1) else some nodeName

def clRequestNodeName (malloc : Malloc) (reply : InfoReply) : Option (Int × CString) := do
  let (rv,values) ← citrusleafInfoHost malloc reply
  if rv ≠ 0 then return (-1,[])
  return (0,(← overValues nodeNameLap values []).1)

def nPartitionsLap (mem : List UInt8) (nPartitions : Int) (name value : Nat) : Option Int := do
  if (← textAt mem name) = text "partitions" then return atoi (← textAt mem value) else return nPartitions

def clRequestNPartitions (malloc : Malloc) (reply : InfoReply) : Option (Int × Int) := do
  let (rv,values) ← citrusleafInfoHost malloc reply
  if rv ≠ 0 then return (-1,0)
  return (0,(← overValues nPartitionsLap values 0).1)

/-- The part of `cl_shm_node_ping` that copies what was asked for into the entry. -/
def copyFields (shared : ClShmNinfo) (request : NodeInfo) (values : List UInt8) : Option ClShmNinfo := do
  let shared := {shared with nodeName := clStrncpy request.nodeName nodeNameSize}
  let services ← strncpyAt values (← request.services) (szFieldNeighbors - 1)
  return {shared with services}

/-! ### One line -/

section

variable {mem before after rest line s : List UInt8} {p left : Nat} {value : Option Nat}

/-- A tab becomes the zero behind a name or a value. -/
def cleared (line : List UInt8) : List UInt8 := line.map fun c => if c = 9 then 0 else c

/-- Where the value starts, if a tab came by. -/
def valueAfter (p : Nat) (value : Option Nat) : List UInt8 → Option Nat
  | [] => value
  | c :: line => valueAfter (p + 1) (if c = 9 then some (p + 1) else value) line

theorem readByte_append (before : List UInt8) (c : UInt8) (after : List UInt8) :
    readByte (before ++ c :: after) before.length = some c := readByte_at before c after rfl

theorem scanLine_line (line before rest : List UInt8) (value : Option Nat) (plain : 0 ∉ line) (clean : 10 ∉ line)
    (stop : c = 0 ∨ c = 10) (enough : line.length < left) :
    scanLine (before ++ (line ++ c :: rest)) before.length value left =
      some (before ++ (cleared line ++ c :: rest),before.length + line.length,valueAfter before.length value line) := by
  induction line generalizing before value left with
  | nil =>
    obtain ⟨left,rfl⟩ := Nat.exists_eq_succ_of_ne_zero (Nat.ne_zero_of_lt enough)
    rw [List.nil_append,scanLine,readByte_append]
    simp [stop,cleared,valueAfter]
  | cons b line ih =>
    obtain ⟨left,rfl⟩ := Nat.exists_eq_succ_of_ne_zero (Nat.ne_zero_of_lt enough)
    simp only [List.mem_cons,not_or] at plain clean
    have move (b : UInt8) (line : List UInt8) : before ++ b :: (line ++ c :: rest) = (before ++ [b]) ++ (line ++ c :: rest) := by
      simp
    have later (b : UInt8) (value : Option Nat) : scanLine (before ++ b :: (line ++ c :: rest)) (before.length + 1) value left =
        some (before ++ b :: (cleared line ++ c :: rest),before.length + (line.length + 1),
          valueAfter (before.length + 1) value line) := by
      have one : (before ++ [b]).length = before.length + 1 := by simp
      have scanned := ih (before ++ [b]) value plain.2 clean.2 (Nat.lt_of_succ_lt_succ enough)
      rw [one,← move,← move,Nat.add_assoc,Nat.add_comm 1] at scanned
      exact scanned
    rw [List.cons_append,scanLine,readByte_append]
    simp only [Option.bind_eq_bind,Option.bind_some]
    rw [if_neg (not_or.mpr ⟨Ne.symm plain.1,Ne.symm clean.1⟩),List.length_cons,valueAfter,cleared,List.map_cons,
      List.cons_append]
    by_cases tab : b = 9
    · have written : writeBytes (before ++ b :: (line ++ c :: rest)) before.length [0] =
          some (before ++ 0 :: (line ++ c :: rest)) := writeBytes_at before [b] (line ++ c :: rest) [0] rfl rfl
      rw [if_pos tab,if_pos tab,if_pos tab,written]
      exact later 0 _
    · rw [if_neg tab,if_neg tab,if_neg tab]
      exact later b _

theorem cleared_clean (clean : 9 ∉ line) : cleared line = line := by
  refine (List.map_congr_left fun c member => ?_).trans (List.map_id line)
  exact if_neg fun tab : c = 9 => clean (tab ▸ member)

theorem valueAfter_clean (p : Nat) (value : Option Nat) (clean : 9 ∉ line) : valueAfter p value line = value := by
  induction line generalizing p with
  | nil => rfl
  | cons c line ih =>
    simp only [List.mem_cons,not_or] at clean
    rw [valueAfter,if_neg (Ne.symm clean.1)]
    exact ih (p + 1) clean.2

/-- The last tab decides. -/
theorem valueAfter_tab (front last : List UInt8) (p : Nat) (value : Option Nat) (clean : 9 ∉ last) :
    valueAfter p value (front ++ 9 :: last) = some (p + front.length + 1) := by
  induction front generalizing p value with
  | nil => exact valueAfter_clean (p + 1) _ clean
  | cons c front ih =>
    rw [List.cons_append,valueAfter,ih,List.length_cons]
    congr 1
    omega

theorem takeWhile_tab (clean : 9 ∉ line) (rest : List UInt8) :
    (line ++ 9 :: rest).takeWhile (fun c => c != 9) = line := by
  have all (c : UInt8) (member : c ∈ line) : (c != 9) = true := bne_iff_ne.mpr fun tab => clean (tab ▸ member)
  rw [List.takeWhile_append_of_pos all,List.takeWhile_cons_of_neg (by decide),List.append_nil]

theorem nameValue_clean (clean : 9 ∉ line) : nameValue line = (line,[]) := by
  have all (c : UInt8) (member : c ∈ line) : (c != 9) = true := bne_iff_ne.mpr fun tab => clean (tab ▸ member)
  rw [nameValue,if_neg clean,List.takeWhile_eq_self_iff.mpr all]

theorem nameValue_tab (front last : List UInt8) (clean : 9 ∉ last) : (nameValue (front ++ 9 :: last)).2 = last := by
  have turned : (front ++ 9 :: last).reverse = last.reverse ++ 9 :: front.reverse := by simp
  simp only [nameValue]
  rw [if_pos (by simp),turned,takeWhile_tab (by simpa using clean),List.reverse_reverse]

/-- The name is read up to the first tab. -/
theorem line_name (before rest : List UInt8) (plain : 0 ∉ line) :
    textAt (before ++ (cleared line ++ 0 :: rest)) before.length = some (nameValue line).1 := by
  by_cases tab : 9 ∈ line
  · obtain ⟨name,later,rfl,clean⟩ := List.eq_append_cons_of_mem tab
    have shape : cleared (name ++ 9 :: later) = name ++ 0 :: cleared later := by
      rw [cleared,List.map_append,List.map_cons,if_pos rfl]
      exact congrArg (· ++ _) (cleared_clean clean)
    rw [shape,nameValue,takeWhile_tab clean,List.append_assoc]
    exact textAt_append before (fun zero => plain (List.mem_append_left _ zero)) _ rfl
  · rw [cleared_clean tab,nameValue_clean tab]
    exact textAt_append before plain rest rfl

/-- The value is read behind the last tab, or where a line without one ends. -/
theorem line_value (before rest : List UInt8) (plain : 0 ∉ line) :
    ∃ value, (valueAfter before.length none line).getD (before.length + line.length) = value ∧
      textAt (before ++ (cleared line ++ 0 :: rest)) value = some (nameValue line).2 ∧
      value + (nameValue line).2.length = before.length + line.length := by
  by_cases tab : 9 ∈ line
  · obtain ⟨last,front,same,clean⟩ := List.eq_append_cons_of_mem (List.mem_reverse.mpr tab)
    have parts : line = front.reverse ++ 9 :: last.reverse := by
      rw [← List.reverse_reverse line,same]
      simp
    have clean : 9 ∉ last.reverse := by simpa using clean
    generalize front.reverse = front,last.reverse = last at parts clean
    subst parts
    have shape : before ++ (cleared (front ++ 9 :: last) ++ 0 :: rest) = (before ++ cleared front ++ [0]) ++ (last ++ 0 :: rest) := by
      have kept := cleared_clean clean
      simp only [cleared] at kept
      simp [cleared,kept]
    have start : (before ++ cleared front ++ [0]).length = before.length + front.length + 1 := by simp [cleared,Nat.add_assoc]
    rw [valueAfter_tab front last _ _ clean,nameValue_tab front last clean,shape,Option.getD_some]
    refine ⟨_,rfl,textAt_append _ (fun zero => plain (by simp [zero])) rest start.symm,?_⟩
    simp only [List.length_append,List.length_cons]
    omega
  · rw [valueAfter_clean _ _ tab,nameValue_clean tab,cleared_clean tab]
    refine ⟨_,rfl,?_,rfl⟩
    have ended := textAt_append (before ++ line) (List.not_mem_nil (a := 0)) rest (List.length_append.symm)
    rw [List.append_assoc] at ended
    exact ended

/-- A call of `get_name_value` on a line, which a newline or the end of the text stops. -/
theorem getNameValue_line (before rest : List UInt8) (plain : 0 ∉ line) (clean : 10 ∉ line) (stop : c = 0 ∨ c = 10)
    (some : line ≠ [] ∨ c = 10) :
    ∃ value, getNameValue (before ++ (line ++ c :: rest)) before.length =
        Option.some (before ++ (cleared line ++ 0 :: rest),Option.some (before.length,value,
          before.length + line.length + if c = 10 then 1 else 0)) ∧
      textAt (before ++ (cleared line ++ 0 :: rest)) before.length = Option.some (nameValue line).1 ∧
      textAt (before ++ (cleared line ++ 0 :: rest)) value = Option.some (nameValue line).2 ∧
      value + (nameValue line).2.length = before.length + line.length := by
  obtain ⟨value,start,read,ends⟩ := line_value before rest plain
  refine ⟨value,?_,line_name before rest plain,read,ends⟩
  have first : ∃ b, readByte (before ++ (line ++ c :: rest)) before.length = Option.some b ∧ b ≠ 0 := by
    cases line with
    | nil =>
      have newline : c = 10 := some.resolve_left (fun none => none rfl)
      exact ⟨c,readByte_append before c rest,by rw [newline]; decide⟩
    | cons b line => exact ⟨b,readByte_append before b _,fun zero => plain (by simp [zero])⟩
  obtain ⟨b,read,nonzero⟩ := first
  have enough : line.length < (before ++ (line ++ c :: rest)).length - before.length := by
    simp only [List.length_append,List.length_cons]
    omega
  have scanned := scanLine_line line before rest none plain clean stop enough
  have length : (cleared line).length = line.length := List.length_map _
  have stopped : readByte (before ++ (cleared line ++ c :: rest)) (before.length + line.length) = Option.some c := by
    have last := readByte_append (before ++ cleared line) c rest
    rw [List.length_append,length,List.append_assoc] at last
    exact last
  have written : writeBytes (before ++ (cleared line ++ c :: rest)) (before.length + line.length) [0] =
      Option.some (before ++ (cleared line ++ 0 :: rest)) := by
    have last := writeBytes_at (p := before.length + line.length) (before ++ cleared line) [c] rest [0]
      (by rw [List.length_append,length]) rfl
    rw [List.append_assoc,List.append_assoc] at last
    exact last
  rw [getNameValue,read]
  simp only [Option.bind_eq_bind,Option.bind_some,nonzero,if_false,scanned,start,stopped]
  by_cases newline : c = 10
  · rw [if_pos newline,if_pos newline,written]
    rfl
  · rw [if_neg newline,if_neg newline,stop.resolve_right newline]
    rfl

/-! ### The whole text -/

theorem strSplit_line (clean : 10 ∉ line) (rest : List UInt8) : strSplit 10 (line ++ 10 :: rest) = line :: strSplit 10 rest := by
  rw [strSplit,strSplitFrom_item 10 [] line _ clean,strSplitFrom,if_pos rfl]
  rfl

theorem strSplit_last (clean : 10 ∉ line) (some : line ≠ []) : strSplit 10 line = [line] := by
  have item := strSplitFrom_item 10 [] line [] clean
  rw [List.append_nil,List.nil_append] at item
  rw [strSplit,item,strSplitFrom,if_neg some]

/-- How the state of a loop in memory stands to one on texts: kept by changes behind the position, and by a lap
whose name and value end before it. -/
structure Follows (lap : List UInt8 → σ → Nat → Nat → Option σ) (pair : τ → CString × CString → τ)
    (rel : Nat → List UInt8 → σ → τ → Prop) : Prop where
  keeps : ∀ {p n mem out s t}, rel p mem s t → Keeps p mem out → p ≤ n → rel n out s t
  laps : ∀ {n mem s t name value a b}, textAt mem name = some a → textAt mem value = some b → value + b.length < n →
    rel n mem s t → ∃ s', lap mem s name value = some s' ∧ rel n mem s' (pair t (a,b))

/-- What `get_name_value` writes is behind the start of the line. -/
theorem cleared_keeps (before line : List UInt8) (c : UInt8) (rest : List UInt8) :
    Keeps before.length (before ++ (line ++ c :: rest)) (before ++ (cleared line ++ 0 :: rest)) := by
  constructor
  · simp [cleared]
  · rw [List.take_left,List.take_left]

/-- The loop reads inside the text, ends, and does with the texts of each line what it does on texts. -/
theorem eachPair_follows {lap : List UInt8 → σ → Nat → Nat → Option σ} {pair : τ → CString × CString → τ}
    {rel : Nat → List UInt8 → σ → τ → Prop} (follows : Follows lap pair rel) (before s after : List UInt8) (plain : 0 ∉ s)
    (state : σ) (t : τ) (start : rel before.length (before ++ (s ++ 0 :: after)) state t) (laps : Nat) (enough : s.length < laps) :
    ∃ state' out n, eachPair lap (before ++ (s ++ 0 :: after)) before.length state laps = some (state',out) ∧
      rel n out state' ((nameValues s).foldl pair t) := by
  induction laps generalizing before s state t with
  | zero => exact absurd enough (Nat.not_lt_zero _)
  | succ laps ih =>
    by_cases empty : s = []
    · subst empty
      refine ⟨state,_,_,?_,start⟩
      rw [eachPair,getNameValue,List.nil_append,readByte_append]
      rfl
    by_cases newline : 10 ∈ s
    · obtain ⟨line,rest,rfl,clean⟩ := List.eq_append_cons_of_mem newline
      have plain' : 0 ∉ line := fun zero => plain (List.mem_append_left _ zero)
      obtain ⟨value,got,name,read,ends⟩ := getNameValue_line before (rest ++ 0 :: after) plain' clean (.inr rfl) (.inr rfl)
      have kept := follows.keeps start (by
        rw [List.append_assoc,List.cons_append]
        exact cleared_keeps before line 10 (rest ++ 0 :: after)) (show before.length ≤ before.length + line.length + 1 by omega)
      obtain ⟨next,lapped,stands⟩ := follows.laps name read (show _ < before.length + line.length + 1 by omega) kept
      have shape : before ++ (cleared line ++ 0 :: (rest ++ 0 :: after)) =
          (before ++ cleared line ++ [0]) ++ (rest ++ 0 :: after) := by simp
      have length : (before ++ cleared line ++ [0]).length = before.length + line.length + 1 := by
        simp [cleared,Nat.add_assoc]
      have fewer : rest.length < laps := by
        rw [List.length_append,List.length_cons] at enough
        omega
      rw [shape,← length] at stands
      obtain ⟨last,out,n,done,holds⟩ := ih (before ++ cleared line ++ [0]) rest
        (fun zero => plain (by simp [zero])) next _ stands fewer
      refine ⟨last,out,n,?_,?_⟩
      · rw [← shape,length] at done
        rw [List.append_assoc,List.cons_append,eachPair,got]
        simp only [Option.bind_eq_bind,Option.bind_some,lapped,if_true]
        exact done
      · rw [nameValues,strSplit_line clean]
        exact holds
    · obtain ⟨value,got,name,read,ends⟩ := getNameValue_line before after plain newline (.inl rfl) (.inl empty)
      have kept := follows.keeps start (cleared_keeps before s 0 after) (show before.length ≤ before.length + s.length + 1 by omega)
      obtain ⟨next,lapped,stands⟩ := follows.laps name read (show _ < before.length + s.length + 1 by omega) kept
      have some := List.length_pos_iff.mpr empty
      obtain ⟨laps,rfl⟩ := Nat.exists_eq_succ_of_ne_zero (show laps ≠ 0 by omega)
      have stopped : readByte (before ++ (cleared s ++ 0 :: after)) (before.length + s.length) = Option.some 0 := by
        have last := readByte_append (before ++ cleared s) 0 after
        rw [List.length_append,cleared,List.length_map,List.append_assoc] at last
        exact last
      refine ⟨next,before ++ (cleared s ++ 0 :: after),before.length + s.length + 1,?_,?_⟩
      · rw [eachPair,got]
        simp only [Option.bind_eq_bind,Option.bind_some,lapped]
        rw [eachPair,getNameValue]
        simp only [Nat.add_zero,show ¬(0 : UInt8) = 10 by decide,if_false,stopped,Option.bind_eq_bind,Option.bind_some,if_true]
        rfl
      · rw [nameValues,strSplit_last newline empty]
        exact stands

/-! ### The laps -/

theorem strncpyAt_append (before s after : List UInt8) (plain : 0 ∉ s) (max : Nat) :
    strncpyAt (before ++ (s ++ 0 :: after)) before.length max = some (s.take max) := by
  induction max generalizing before s with
  | zero =>
    cases s with
    | nil => rw [List.nil_append,strncpyAt,readByte_append]; rfl
    | cons c s => rw [List.cons_append,strncpyAt,readByte_append]; rfl
  | succ max ih =>
    cases s with
    | nil => rw [List.nil_append,strncpyAt,readByte_append]; rfl
    | cons c s =>
      simp only [List.mem_cons,not_or] at plain
      have later := ih (before ++ [c]) s plain.2
      rw [List.append_assoc,List.length_append] at later
      rw [List.cons_append,strncpyAt,readByte_append]
      simp only [Option.bind_eq_bind,Option.bind_some,Ne.symm plain.1,if_false]
      exact bind_given later rfl

theorem strncpyAt_text (found : textAt mem p = some s) (max : Nat) : strncpyAt mem p max = some (s.take max) := by
  obtain ⟨plain,inside,after,parts⟩ := textAt_parts found
  have copied := strncpyAt_append (mem.take p) s after plain max
  rwa [← parts,List.length_take_of_le inside] at copied

theorem nodeNameLap_follows : Follows nodeNameLap
    (fun t pair => if pair.1 = text "node" then clStrncpy pair.2 nodeNameSize else t) (fun _ _ s t => s = t) := by
  constructor
  · intro p n mem out s t same _ _
    exact same
  · rintro n mem s t name value a b hname hvalue _ rfl
    refine ⟨_,?_,rfl⟩
    rw [nodeNameLap,hname]
    simp only [Option.bind_eq_bind,Option.bind_some]
    split
    · exact strncpyAt_text hvalue _
    · rfl

theorem nPartitionsLap_follows : Follows nPartitionsLap
    (fun t pair => if pair.1 = text "partitions" then atoi pair.2 else t) (fun _ _ s t => s = t) := by
  constructor
  · intro p n mem out s t same _ _
    exact same
  · rintro n mem s t name value a b hname hvalue _ rfl
    refine ⟨_,?_,rfl⟩
    rw [nPartitionsLap,hname]
    simp only [Option.bind_eq_bind,Option.bind_some,hvalue]
    split <;> rfl

/-- The fields are those of the texts, and the pointer is to the text of the services. -/
structure SameInfo (n : Nat) (mem : List UInt8) (s : NodeInfo) (t : ClNodeInfo) : Prop where
  nodeName : s.nodeName = t.nodeName
  generation : s.partitionGeneration = t.partitionGeneration
  services : ∀ p, s.services = some p → ∃ services, t.services = some services ∧ textAt mem p = some services ∧
    p + services.length < n
  null : s.services = none ↔ t.services = none

theorem nodeInfoLap_follows : Follows nodeInfoLap nodeInfoPair SameInfo := by
  constructor
  · intro p n mem out s t same keeps later
    refine ⟨same.nodeName,same.generation,fun q there => ?_,same.null⟩
    obtain ⟨services,known,read,ends⟩ := same.services q there
    exact ⟨services,known,keeps.textAt read ends,Nat.lt_of_lt_of_le ends later⟩
  · intro n mem s t name value a b hname hvalue ends same
    rw [nodeInfoLap,hname]
    simp only [Option.bind_eq_bind,Option.bind_some,nodeInfoPair]
    split
    · rw [strncpyAt_text hvalue]
      exact ⟨_,rfl,rfl,same.generation,same.services,same.null⟩
    split
    · rw [hvalue]
      exact ⟨_,rfl,same.nodeName,rfl,same.services,same.null⟩
    split
    · refine ⟨_,rfl,same.nodeName,same.generation,fun p there => ?_,by simp⟩
      obtain rfl := Option.some.inj there
      exact ⟨b,rfl,hvalue,ends⟩
    · exact ⟨_,rfl,same⟩

/-! ### The replies -/

/-- A response without a body. -/
def InfoReply.Empty (reply : InfoReply) : Prop := ∃ body, reply = .response 0 body

/-- The text of a body that was read whole, up to its first zero. -/
def InfoReply.text : InfoReply → CString
  | .noHeader => []
  | .response sz body => (body sz).read.buf.takeWhile (· ≠ 0)

variable {reply : InfoReply}

/-- Nothing is written outside; what succeeds hands back the body and a zero behind it, unless it is empty. -/
theorem infoHost_cases (malloc : Malloc) (maxResponseLength : Nat) (reply : InfoReply) :
    (reply.Empty ∧ citrusleafInfoHostLimit malloc maxResponseLength reply = some (0,none)) ∨
      ¬reply.Empty ∧ (citrusleafInfoHostLimit malloc maxResponseLength reply = some (-1,none) ∨
        ∃ bytes, citrusleafInfoHostLimit malloc maxResponseLength reply = some (0,some (bytes ++ [0])) ∧
          reply.text = bytes.takeWhile (· ≠ 0)) := by
  cases reply with
  | noHeader =>
    refine .inr ⟨?_,.inl rfl⟩
    rintro ⟨_,same⟩
    cases same
  | response sz body =>
    by_cases empty : sz = 0
    · subst empty
      exact .inl ⟨⟨body,rfl⟩,rfl⟩
    refine .inr ⟨?_,?_⟩
    · rintro ⟨_,same⟩
      cases same
      exact empty rfl
    rw [citrusleafInfoHostLimit,if_neg empty]
    dsimp only
    cases given : mallocBlock malloc (infoReadLength maxResponseLength sz + 1) with
    | none => exact .inl rfl
    | some vBuf =>
      have reads := (body (infoReadLength maxResponseLength sz)).reads
      have room := mallocBlock_length given
      have most := reads.most
      have written := writeBytes_front vBuf (body (infoReadLength maxResponseLength sz)).read.buf (by omega)
      simp only [written,Option.bind_eq_bind,Option.bind_some]
      split
      · exact .inl rfl
      rename_i done
      have size := reads.full (not_not.mp done)
      have one : (vBuf.drop (body (infoReadLength maxResponseLength sz)).read.buf.length).length = 1 := by
        rw [List.length_drop]
        omega
      have ended := writeBytes_at (body (infoReadLength maxResponseLength sz)).read.buf
        (vBuf.drop (body (infoReadLength maxResponseLength sz)).read.buf.length) [] [0] size.symm one
      rw [List.append_nil,List.append_nil] at ended
      simp only [ended,Option.bind_some]
      split
      · exact .inl rfl
      · rename_i below
        have whole : infoReadLength maxResponseLength sz = sz := if_neg below
        rw [whole]
        exact .inr ⟨_,rfl,rfl⟩

theorem overValues_follows {lap : List UInt8 → σ → Nat → Nat → Option σ} {pair : τ → CString × CString → τ}
    {rel : Nat → List UInt8 → σ → τ → Prop} (follows : Follows lap pair rel) (bytes : List UInt8) (state : σ) (t : τ)
    (start : ∀ mem, rel 0 mem state t) :
    ∃ state' out n, overValues lap (some (bytes ++ [0])) state = some (state',out) ∧
      rel n out state' ((nameValues (bytes.takeWhile (· ≠ 0))).foldl pair t) := by
  have found := textAt_zero bytes []
  obtain ⟨plain,_,after,parts⟩ := textAt_parts found
  rw [List.take_zero] at parts
  have short := (List.takeWhile_prefix (p := fun c : UInt8 => decide (c ≠ 0)) (l := bytes)).length_le
  obtain ⟨state',out,n,done,holds⟩ := eachPair_follows follows [] (bytes.takeWhile (· ≠ 0)) after plain state t (start _)
    ((bytes ++ [0]).length + 1) (by rw [List.length_append]; omega)
  refine ⟨state',out,n,?_,holds⟩
  rw [← parts] at done
  exact done

theorem nodeInfoStart (mem : List UInt8) : SameInfo 0 mem ⟨[],0,none⟩ ⟨[],none,0⟩ := by
  refine ⟨rfl,rfl,?_,by simp⟩
  intro p there
  cases there

/-- What a request for node information gives: the fields that the text has. -/
theorem nodeInfo_text (malloc : Malloc) (some : ¬reply.Empty) : clRequestNodeInfo malloc reply = Option.some (-1,⟨[],0,none⟩,[]) ∨
    ∃ request out n, clRequestNodeInfo malloc reply = Option.some (0,request,out) ∧
      SameInfo n out request (Citrusleaf.clRequestNodeInfo reply.text) := by
  rw [clRequestNodeInfo]
  rcases infoHost_cases malloc 10000 reply with ⟨empty,_⟩ | ⟨_,failed | ⟨bytes,given,text⟩⟩
  · exact absurd empty some
  · rw [failed]
    exact .inl rfl
  · obtain ⟨request,out,n,done,same⟩ := overValues_follows nodeInfoLap_follows bytes _ _ nodeInfoStart
    rw [given,text]
    refine .inr ⟨request,out,n,?_,same⟩
    simp only [Option.bind_eq_bind,Option.bind_some,done]
    rfl

theorem nodeName_text (malloc : Malloc) (some : ¬reply.Empty) : clRequestNodeName malloc reply = Option.some (-1,[]) ∨
    clRequestNodeName malloc reply = Option.some (0,(nameValues reply.text).foldl
      (fun nodeName pair => if pair.1 = Citrusleaf.text "node" then clStrncpy pair.2 nodeNameSize else nodeName) []) := by
  rw [clRequestNodeName,citrusleafInfoHost]
  rcases infoHost_cases malloc 0 reply with ⟨empty,_⟩ | ⟨_,failed | ⟨bytes,given,text⟩⟩
  · exact absurd empty some
  · rw [failed]
    exact .inl rfl
  · obtain ⟨name,out,n,done,rfl⟩ := overValues_follows nodeNameLap_follows bytes [] [] fun _ => rfl
    rw [given,text]
    refine .inr ?_
    simp only [Option.bind_eq_bind,Option.bind_some,done]
    rfl

theorem nPartitions_text (malloc : Malloc) (some : ¬reply.Empty) : clRequestNPartitions malloc reply = Option.some (-1,0) ∨
    clRequestNPartitions malloc reply = Option.some (0,Citrusleaf.clRequestNPartitions reply.text) := by
  rw [clRequestNPartitions,citrusleafInfoHost]
  rcases infoHost_cases malloc 0 reply with ⟨empty,_⟩ | ⟨_,failed | ⟨bytes,given,text⟩⟩
  · exact absurd empty some
  · rw [failed]
    exact .inl rfl
  · obtain ⟨count,out,n,done,rfl⟩ := overValues_follows nPartitionsLap_follows bytes 0 0 fun _ => rfl
    rw [given,text]
    refine .inr ?_
    simp only [Option.bind_eq_bind,Option.bind_some,done]
    rfl

/-- An empty body is a success with a null pointer, which the first lap reads through. -/
theorem empty_crashes (malloc : Malloc) (empty : reply.Empty) : clRequestNodeInfo malloc reply = none ∧ clRequestNodeName malloc reply = none ∧
    clRequestNPartitions malloc reply = none := by
  obtain ⟨body,rfl⟩ := empty
  exact ⟨rfl,rfl,rfl⟩

/-- A line of the text gives the services. -/
def HasServices (values : CString) : Prop := ∃ pair ∈ nameValues values, pair.1 = Citrusleaf.text "services"

theorem services_given (values : CString) : (Citrusleaf.clRequestNodeInfo values).services ≠ none ↔ HasServices values := by
  have step (pairs : List (CString × CString)) (t : ClNodeInfo) : (pairs.foldl nodeInfoPair t).services ≠ none ↔
      t.services ≠ none ∨ ∃ pair ∈ pairs, pair.1 = Citrusleaf.text "services" := by
    induction pairs generalizing t with
    | nil => simp
    | cons pair pairs ih =>
      have lap : (nodeInfoPair t pair).services ≠ none ↔ t.services ≠ none ∨ pair.1 = Citrusleaf.text "services" := by
        obtain ⟨name,value⟩ := pair
        simp only [nodeInfoPair]
        split_ifs with node generation services
        · rw [or_iff_left (by rw [node]; decide)]
        · rw [or_iff_left (by rw [generation]; decide)]
        · exact iff_of_true (Option.some_ne_none value) (.inr services)
        · rw [or_iff_left services]
      rw [List.foldl_cons,ih,lap,List.exists_mem_cons_iff,or_assoc]
  exact (step _ _).trans (or_iff_right (by simp))

/-- The copy of the fields reads through a pointer that only a line of the services sets. -/
theorem copyFields_isSome (shared : ClShmNinfo) (same : SameInfo n mem request t) :
    (copyFields shared request mem).isSome ↔ t.services ≠ none := by
  cases there : request.services with
  | none =>
    refine iff_of_false ?_ fun given => given (same.null.mp there)
    simp [copyFields,there]
  | some p =>
    obtain ⟨services,known,read,_⟩ := same.services p there
    refine iff_of_true ?_ (known ▸ Option.some_ne_none services)
    simp [copyFields,there,strncpyAt_text read]

end

/-- A request survives exactly the replies that have a body, and the copy into the entry those with a line of
the services. -/
theorem info_replies_iff (malloc : Malloc) (reply : InfoReply) :
    ((clRequestNodeInfo malloc reply).isSome ↔ ¬reply.Empty) ∧ ((clRequestNodeName malloc reply).isSome ↔ ¬reply.Empty) ∧
      ((clRequestNPartitions malloc reply).isSome ↔ ¬reply.Empty) ∧
      ∀ shared request values, clRequestNodeInfo malloc reply = some (0,request,values) →
        ((copyFields shared request values).isSome ↔ HasServices reply.text) := by
  by_cases empty : reply.Empty
  · obtain ⟨nodeInfo,nodeName,nPartitions⟩ := empty_crashes malloc empty
    rw [nodeInfo,nodeName,nPartitions]
    simp [empty]
  refine ⟨iff_of_true ?_ empty,iff_of_true ?_ empty,iff_of_true ?_ empty,fun shared request values done => ?_⟩
  · rcases nodeInfo_text malloc empty with failed | ⟨request,out,n,done,_⟩
    · rw [failed]
      rfl
    · rw [done]
      rfl
  · rcases nodeName_text malloc empty with failed | done
    · rw [failed]
      rfl
    · rw [done]
      rfl
  · rcases nPartitions_text malloc empty with failed | done
    · rw [failed]
      rfl
    · rw [done]
      rfl
  · rcases nodeInfo_text malloc empty with failed | ⟨request',out,n,known,same⟩
    · rw [failed] at done
      cases done
    · rw [known] at done
      cases done
      exact (copyFields_isSome shared same).trans (services_given reply.text)

/-- The bytes arrive at once. -/
def quickBody (bytes : List UInt8) (want : Nat) : BodyRead want :=
  ⟨bytes,cfSocketReadTimeout bytes want 0 1000 ⟨none,0,[⟨0,.arrived 1000⟩]⟩,socketRead_reads bytes want 0 1000 _⟩

def emptyEntry : ClShmNinfo := ⟨[],0,[],[],[]⟩

theorem info_replies_iff_services :
    (copyFields emptyEntry ⟨[],0,some 9⟩ [115,101,114,118,105,99,101,115,0,97,0]).isSome := by
  have done : clRequestNodeInfo (fun _ => some fun _ => 7) (.response 10 (quickBody (text "services\ta"))) =
      some (0,⟨[],0,some 9⟩,[115,101,114,118,105,99,101,115,0,97,0]) := rfl
  exact ((info_replies_iff (fun _ => some fun _ => 7) (.response 10 (quickBody (text "services\ta")))).2.2.2 emptyEntry _ _
    done).mpr ⟨(text "services",text "a"),by decide,rfl⟩

/-- A response without a body ends the client at once, one that gives only a node name when its fields are copied. -/
theorem short_replies_crash :
    clRequestNodeInfo (fun _ => some fun _ => 7) (.response 0 (quickBody [])) = none ∧
      clRequestNodeInfo (fun _ => some fun _ => 7) (.response 8 (quickBody (text "node\tBB9"))) =
        some (0,⟨text "BB9",0,none⟩,[110,111,100,101,0,66,66,57,0]) ∧
      copyFields emptyEntry ⟨text "BB9",0,none⟩ [110,111,100,101,0,66,66,57,0] = none :=
  ⟨rfl,rfl,rfl⟩

end Citrusleaf.Info
