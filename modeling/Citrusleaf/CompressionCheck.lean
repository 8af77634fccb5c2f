import Citrusleaf.ShmNodes
import Citrusleaf.Lib.Loops

/-! `citrusleaf_cluster_change_compression_threshold`. The loop over the hosts and the one over the
components of a version use one variable, and the addresses of a host are added to those before. -/
namespace Citrusleaf.Compression
open Lib Shm

def disableCompression : Int := 0

def compressionVersion : UInt32 × UInt32 × UInt32 := (2,6,8)

/-- `strtok_r` with one separator: the token, and the text behind `tmp_ptr`. -/
def strtokR (seperator : UInt8) (str : CString) : Option CString × CString :=
  match str.dropWhile (· = seperator) with
  | [] => (none,[])
  | str => (some (str.takeWhile (· ≠ seperator)),(str.dropWhile (· ≠ seperator)).drop 1)

def readNumber (seperator : UInt8) (tmpPtr : CString) : Option (UInt32 × CString) :=
  let (tmpChr,tmpPtr) := strtokR seperator tmpPtr
  tmpChr.map fun tmpChr => (UInt32.ofInt (atoi tmpChr),tmpPtr)

/-- The three numbers between ".", "." and "-". `index` counts them. -/
def readVersion (tmpPtr : CString) : Option ((UInt32 × UInt32 × UInt32) × CString) := do
  let (first,tmpPtr) ← readNumber 46 tmpPtr
  let (second,tmpPtr) ← readNumber 46 tmpPtr
  let (third,tmpPtr) ← readNumber 45 tmpPtr
  return ((first,second,third),tmpPtr)

def versionBelow (version : UInt32 × UInt32 × UInt32) : Bool :=
  version.1 < compressionVersion.1 ||
    (version.1 = compressionVersion.1 && version.2.1 < compressionVersion.2.1) ||
    (version.1 = compressionVersion.1 && version.2.1 = compressionVersion.2.1 && version.2.2 < compressionVersion.2.2)

/-- A server without compression, or one with it and the text that is left of its reply. -/
inductive Judged where
  | refuses
  | supports (tmpPtr : CString)

def judgeText (values : CString) : Judged :=
  match readVersion (strtokR 9 values).2 with
  | none => .refuses
  | some (version,tmpPtr) => if versionBelow version then .refuses else .supports tmpPtr

/-- One reply. Where the body is empty, `strtok_r` goes on with the text before, if there is one. -/
def judge (tmpPtr : Option CString) : Reply → Option Judged
  | .failed => some .refuses
  | .null => tmpPtr.map judgeText
  | .values values => some (judgeText values)

section

variable {A : Type}

/-- The loop over the addresses: nothing where a server refuses, and `index` and `tmp_ptr` behind the last. -/
def checkAddresses (build : A → Reply) : Nat → Option CString → List A → Option (Option (Nat × Option CString))
  | index,tmpPtr,[] => some (some (index,tmpPtr))
  | _,tmpPtr,sin :: sins => do
    match ← judge tmpPtr (build sin) with
    | .refuses => return none
    | .supports tmpPtr => checkAddresses build 3 (some tmpPtr) sins

/-- `cl_lookup` adds what is not there yet. -/
def addAddresses [DecidableEq A] (sockaddrInV : List A) (addrs : List A) : List A :=
  addrs.foldl (fun v addr => if addr ∈ v then v else v ++ [addr]) sockaddrInV

structure HostLap (A : Type) where
  index : Nat
  sockaddrInV : List A
  tmpPtr : Option CString

/-- One lap over the hosts, each given by the addresses it resolves to. The result is the threshold that is set,
if nothing is read through a null pointer. -/
def hostLap [DecidableEq A] (hosts : List (List A)) (build : A → Reply) (sizeInBytes : Int) (s : HostLap A) : Lap (HostLap A) (Option Int) :=
  match hosts[s.index]? with
  | none => .ends (some sizeInBytes)
  | some addrs =>
    let sockaddrInV := addAddresses s.sockaddrInV addrs
    match checkAddresses build s.index s.tmpPtr sockaddrInV with
    | none => .ends none
    | some none => .ends (some disableCompression)
    | some (some (index,tmpPtr)) => .on ⟨index + 1,sockaddrInV,tmpPtr⟩

def citrusleafClusterChangeCompressionThreshold [DecidableEq A] (hosts : List (List A)) (build : A → Reply) (sizeInBytes : Int)
    (threshold : Option Int) : Prop :=
  if sizeInBytes = disableCompression then threshold = some disableCompression
  else Ends (hostLap hosts build sizeInBytes) ⟨0,[],none⟩ threshold

/-! ### What is promised -/

/-- The numbers of a version, in the order in which they are compared. -/
def numbers (version : UInt32 × UInt32 × UInt32) : List UInt32 := [version.1,version.2.1,version.2.2]

/-- The reply of a server whose version is the first with compression or a later one. -/
def Capable : Reply → Prop
  | .values values => ∃ version rest, readVersion (strtokR 9 values).2 = some (version,rest) ∧
      numbers compressionVersion ≤ numbers version
  | _ => False

def AllCapable (hosts : List (List A)) (build : A → Reply) : Prop := ∀ addrs ∈ hosts, ∀ sin ∈ addrs, Capable (build sin)

/-- The call ends, and sets the size if all servers have compression and disables it if one has not. -/
def ChecksEvery [DecidableEq A] (hosts : List (List A)) (build : A → Reply) (sizeInBytes : Int) : Prop :=
  (AllCapable hosts build → citrusleafClusterChangeCompressionThreshold hosts build sizeInBytes (some sizeInBytes)) ∧
    (¬AllCapable hosts build →
      citrusleafClusterChangeCompressionThreshold hosts build sizeInBytes (some disableCompression))

/-- A server refuses when some addresses are asked in turn. -/
def Refused (build : A → Reply) (tmpPtr : Option CString) (sockaddrInV : List A) : Prop :=
  checkAddresses build 0 tmpPtr sockaddrInV = some none

/-- No host has an address, or one of the first host that has any refuses; or none of these does, and with up to
four hosts no server of any refuses, with more hosts one does when those of the fifth are asked too. -/
def LooksEnough [DecidableEq A] (hosts : List (List A)) (build : A → Reply) : Prop :=
  ∀ addrs, hosts.find? (· ≠ []) = some addrs →
    Refused build none (addAddresses [] addrs) ∨
      ∃ tmpPtr, checkAddresses build 0 none (addAddresses [] addrs) = some (some (3,tmpPtr)) ∧
        ((hosts.length ≤ 4 ∧ AllCapable hosts build) ∨
          ∃ fifth, hosts[4]? = some fifth ∧ Refused build tmpPtr (addAddresses (addAddresses [] addrs) fifth))

/-! ### One reply -/

theorem versionBelow_iff (version : UInt32 × UInt32 × UInt32) :
    versionBelow version = false ↔ numbers compressionVersion ≤ numbers version := by
  obtain ⟨a,b,c⟩ := version
  simp only [versionBelow,numbers,compressionVersion,List.cons_le_cons_iff,List.nil_le,and_true,Bool.or_eq_false_iff,
    Bool.and_eq_false_iff]
  grind

theorem judge_capable (tmpPtr : Option CString) (capable : Capable reply) : ∃ rest, judge tmpPtr reply = some (.supports rest) := by
  cases reply with
  | failed => cases capable
  | null => cases capable
  | values values =>
    obtain ⟨version,rest,read,notBelow⟩ := capable
    refine ⟨rest,?_⟩
    rw [judge,judgeText,read]
    simp [(versionBelow_iff version).mpr notBelow]

/-! ### The addresses -/

variable {hosts : List (List A)} {build : A → Reply} {v addrs : List A} {tmpPtr : Option CString}

/-- With an address in front that answers with a body, or not at all, neither the index nor the text before matters. -/
theorem checkAddresses_head (answers : build sin ≠ .null) (i j : Nat) (tmpPtr other : Option CString) (sins : List A) :
    checkAddresses build i tmpPtr (sin :: sins) = checkAddresses build j other (sin :: sins) := by
  rw [checkAddresses,checkAddresses]
  cases reply : build sin with
  | failed => rfl
  | null => exact absurd reply answers
  | values values => rfl

theorem checkAddresses_index (some : v ≠ []) (i j : Nat) (tmpPtr : Option CString) :
    checkAddresses build i tmpPtr v = checkAddresses build j tmpPtr v := by
  cases v with
  | nil => exact absurd rfl some
  | cons sin sins => rfl

/-- Whoever went on over some addresses has counted to three. -/
theorem checkAddresses_counts (done : checkAddresses build i tmpPtr v = some (some (index,rest))) (some : v ≠ []) : index = 3 := by
  induction v generalizing i tmpPtr with
  | nil => exact absurd rfl some
  | cons sin sins ih =>
    rw [checkAddresses] at done
    obtain ⟨judged,_,done⟩ := Option.bind_eq_some_iff.mp done
    cases judged with
    | refuses => cases done
    | supports later =>
      cases sins with
      | nil =>
        cases done
        rfl
      | cons next sins => exact ih done (List.cons_ne_nil _ _)

theorem checkAddresses_capable (all : ∀ sin ∈ v, Capable (build sin)) (i : Nat) (tmpPtr : Option CString) :
    ∃ r, checkAddresses build i tmpPtr v = some (some r) := by
  induction v generalizing i tmpPtr with
  | nil => exact ⟨_,rfl⟩
  | cons sin sins ih =>
    obtain ⟨rest,judged⟩ := judge_capable tmpPtr (all sin List.mem_cons_self)
    obtain ⟨r,done⟩ := ih (fun sin member => all sin (List.mem_cons_of_mem _ member)) 3 (some rest)
    refine ⟨r,?_⟩
    rw [checkAddresses,judged]
    exact done

/-- Not all support compression where one refuses. -/
theorem refused_not_capable (refused : Refused build tmpPtr v) : ¬∀ sin ∈ v, Capable (build sin) := by
  intro all
  obtain ⟨r,done⟩ := checkAddresses_capable all 0 tmpPtr
  cases refused.symm.trans done

variable [DecidableEq A]

theorem addAddresses_cons (v : List A) (sin : A) (addrs : List A) :
    addAddresses v (sin :: addrs) = addAddresses (if sin ∈ v then v else v ++ [sin]) addrs := rfl

theorem addAddresses_prefix (v addrs : List A) : ∃ more, addAddresses v addrs = v ++ more := by
  induction addrs generalizing v with
  | nil => exact ⟨[],(List.append_nil v).symm⟩
  | cons sin addrs ih =>
    rw [addAddresses_cons]
    split
    · exact ih v
    · obtain ⟨more,same⟩ := ih (v ++ [sin])
      exact ⟨sin :: more,by rw [same,List.append_assoc]; rfl⟩

theorem mem_addAddresses : sin ∈ addAddresses v addrs ↔ sin ∈ v ∨ sin ∈ addrs := by
  induction addrs generalizing v with
  | nil => simp [addAddresses]
  | cons addr addrs ih =>
    rw [addAddresses_cons,ih]
    split <;> grind

theorem addAddresses_known (known : ∀ sin ∈ addrs, sin ∈ v) : addAddresses v addrs = v := by
  induction addrs with
  | nil => rfl
  | cons sin addrs ih =>
    rw [addAddresses_cons,if_pos (known sin List.mem_cons_self)]
    exact ih fun sin member => known sin (List.mem_cons_of_mem _ member)

/-! ### The hosts -/

variable {sizeInBytes : Int} {s : HostLap A} {r : Option Int}

/-- A lap with an address to ask. -/
theorem hostLap_asks (build : A → Reply) (sizeInBytes : Int) (there : hosts[s.index]? = some addrs) (some : addAddresses s.sockaddrInV addrs ≠ []) :
    hostLap hosts build sizeInBytes s =
      match checkAddresses build 0 s.tmpPtr (addAddresses s.sockaddrInV addrs) with
      | none => .ends none
      | Option.some none => .ends (Option.some disableCompression)
      | Option.some (Option.some (index,tmpPtr)) => .on ⟨index + 1,addAddresses s.sockaddrInV addrs,tmpPtr⟩ := by
  rw [hostLap,there]
  dsimp only
  rw [checkAddresses_index some s.index 0]

/-- Hosts without an address are passed one by one. -/
theorem hosts_skipped (before later : List (List A)) (empty : ∀ addrs ∈ before, addrs = []) (build : A → Reply)
    (sizeInBytes : Int) (r : Option Int) :
    Ends (hostLap (before ++ later) build sizeInBytes) ⟨0,[],none⟩ r ↔
      Ends (hostLap (before ++ later) build sizeInBytes) ⟨before.length,[],none⟩ r := by
  have pass (k : Nat) (inside : k ≤ before.length) : Ends (hostLap (before ++ later) build sizeInBytes) ⟨0,[],none⟩ r ↔
      Ends (hostLap (before ++ later) build sizeInBytes) ⟨k,[],none⟩ r := by
    induction k with
    | zero => rfl
    | succ k ih =>
      have here : (before ++ later)[k]? = some [] := by
        rw [List.getElem?_append_left inside,List.getElem?_eq_getElem inside,empty _ (List.getElem_mem inside)]
      refine (ih (Nat.le_of_lt inside)).trans (ends_on ?_)
      rw [hostLap,here]
      rfl
  exact pass before.length (Nat.le_refl _)

/-- The fifth host is asked for ever where nobody refuses: the variable of its loop is set to three by each reply. -/
theorem fifth_for_ever {fifth : List A} (there : hosts[4]? = some fifth) (first : build sin ≠ .null)
    (known : ∀ addr ∈ fifth, addr ∈ sin :: v) (agrees : checkAddresses build 0 none (sin :: v) = some (some (3,tmpPtr))) :
    ¬Ends (hostLap hosts build sizeInBytes) ⟨4,sin :: v,other⟩ r := by
  refine never_ends (fun s => s.index = 4 ∧ s.sockaddrInV = sin :: v) ?_ ⟨rfl,rfl⟩
  rintro ⟨index,_,before⟩ ⟨rfl,rfl⟩
  have same := addAddresses_known known
  refine ⟨⟨4,sin :: v,tmpPtr⟩,?_,rfl,rfl⟩
  rw [hostLap_asks build sizeInBytes there (by rw [same]; exact List.cons_ne_nil _ _),same,checkAddresses_head first 0 0 before none,agrees]

/-- What the outcome of the loop makes of the promise. -/
theorem checksEvery_of (nonzero : sizeInBytes ≠ disableCompression)
    (outcome : ∀ r, Ends (hostLap hosts build sizeInBytes) ⟨0,[],none⟩ r ↔ last = r) :
    ChecksEvery hosts build sizeInBytes ↔ (AllCapable hosts build → last = some sizeInBytes) ∧
      (¬AllCapable hosts build → last = some disableCompression) := by
  rw [ChecksEvery,citrusleafClusterChangeCompressionThreshold,citrusleafClusterChangeCompressionThreshold,if_neg nonzero,
    if_neg nonzero,outcome,outcome]

theorem checksEvery_disabled (nonzero : sizeInBytes ≠ disableCompression) (some : ¬AllCapable hosts build)
    (outcome : ∀ r, Ends (hostLap hosts build sizeInBytes) ⟨0,[],none⟩ r ↔ Option.some disableCompression = r) :
    ChecksEvery hosts build sizeInBytes :=
  (checksEvery_of nonzero outcome).mpr ⟨fun all => absurd all some,fun _ => rfl⟩

theorem checksEvery_set (nonzero : sizeInBytes ≠ disableCompression)
    (outcome : ∀ r, Ends (hostLap hosts build sizeInBytes) ⟨0,[],none⟩ r ↔ some sizeInBytes = r) :
    ChecksEvery hosts build sizeInBytes ↔ AllCapable hosts build := by
  rw [checksEvery_of nonzero outcome]
  constructor
  · rintro ⟨_,disabled⟩
    by_contra not
    exact nonzero (Option.some.inj (disabled not))
  · intro all
    exact ⟨fun _ => rfl,fun not => absurd all not⟩

/-- A loop that crashes or never ends sets nothing. -/
theorem checksEvery_lost (nonzero : sizeInBytes ≠ disableCompression)
    (outcome : ∀ threshold, ¬Ends (hostLap hosts build sizeInBytes) ⟨0,[],none⟩ (some threshold)) :
    ¬ChecksEvery hosts build sizeInBytes := by
  rintro ⟨set,disabled⟩
  rw [citrusleafClusterChangeCompressionThreshold,if_neg nonzero] at set disabled
  by_cases all : AllCapable hosts build
  · exact outcome _ (set all)
  · exact outcome _ (disabled all)

/-- Addresses that were asked came from some host. -/
theorem asked_capable (all : AllCapable hosts build) (member : addrs ∈ hosts) (before : ∀ sin ∈ v, Capable (build sin)) :
    ∀ sin ∈ addAddresses v addrs, Capable (build sin) := by
  intro sin inside
  rcases mem_addAddresses.mp inside with old | new
  · exact before sin old
  · exact all addrs member sin new

/-- From the fifth host on, which the loop comes to with some addresses that agreed. -/
theorem checks_fifth {fifth : List A} (nonzero : sizeInBytes ≠ disableCompression)
    (agreed : AllCapable hosts build → ∀ addr ∈ sin :: v, Capable (build addr))
    (checked : checkAddresses build 0 none (sin :: v) = some (some (3,tmpPtr)))
    (laps : ∀ r, Ends (hostLap hosts build sizeInBytes) ⟨0,[],none⟩ r ↔
      Ends (hostLap hosts build sizeInBytes) ⟨4,sin :: v,tmpPtr⟩ r) (there : hosts[4]? = some fifth) :
    ChecksEvery hosts build sizeInBytes ↔ Refused build tmpPtr (addAddresses (sin :: v) fifth) := by
  obtain ⟨others,again⟩ := addAddresses_prefix (sin :: v) fifth
  have again : addAddresses (sin :: v) fifth = sin :: (v ++ others) := again
  have second := hostLap_asks (s := ⟨4,sin :: v,tmpPtr⟩) build sizeInBytes there (by rw [again]; exact List.cons_ne_nil _ _)
  dsimp only at second
  cases verdict : checkAddresses build 0 tmpPtr (addAddresses (sin :: v) fifth) with
  | none =>
    rw [verdict] at second
    refine iff_of_false (checksEvery_lost nonzero fun threshold ends => ?_) fun refused => ?_
    · cases (ends_ends second).mp ((laps _).mp ends)
    · cases verdict.symm.trans refused
  | some result =>
    cases result with
    | none =>
      rw [verdict] at second
      have refuses : ¬AllCapable hosts build := fun all =>
        refused_not_capable verdict (asked_capable all (List.mem_of_getElem? there) (agreed all))
      exact iff_of_true (checksEvery_disabled nonzero refuses fun r => (laps r).trans (ends_ends second)) verdict
    | some next =>
      obtain ⟨index,later⟩ := next
      obtain rfl := checkAddresses_counts verdict (by rw [again]; exact List.cons_ne_nil _ _)
      have answers : build sin ≠ .null := by
        intro null
        rw [checkAddresses,null] at checked
        cases checked
      rw [verdict] at second
      refine iff_of_false (checksEvery_lost nonzero fun threshold ends => ?_) fun refused => ?_
      · have on := (ends_on second).mp ((laps _).mp ends)
        rw [again] at on verdict
        have agrees := (checkAddresses_head answers 0 0 none tmpPtr (v ++ others)).trans verdict
        refine fifth_for_ever there answers (fun addr member => ?_) agrees on
        rw [← again]
        exact mem_addAddresses.mpr (.inr member)
      · cases verdict.symm.trans refused

/-- From the first host that has an address on. -/
theorem checks_from (nonzero : sizeInBytes ≠ disableCompression) (here : addrs ∈ hosts) (some : addrs ≠ [])
    (lap : ∀ r, Ends (hostLap hosts build sizeInBytes) ⟨0,[],none⟩ r ↔
      Ends (hostLap hosts build sizeInBytes) ⟨k,[],none⟩ r) (there : hosts[k]? = Option.some addrs) :
    ChecksEvery hosts build sizeInBytes ↔ Refused build none (addAddresses [] addrs) ∨
      ∃ tmpPtr, checkAddresses build 0 none (addAddresses [] addrs) = Option.some (Option.some (3,tmpPtr)) ∧
        ((hosts.length ≤ 4 ∧ AllCapable hosts build) ∨
          ∃ fifth, hosts[4]? = Option.some fifth ∧ Refused build tmpPtr (addAddresses (addAddresses [] addrs) fifth)) := by
  obtain ⟨sin,rest,rfl⟩ := List.exists_cons_of_ne_nil some
  obtain ⟨more,asked⟩ := addAddresses_prefix [sin] rest
  have asked : addAddresses [] (sin :: rest) = sin :: more := asked
  have first := hostLap_asks (s := ⟨k,[],none⟩) build sizeInBytes there (by rw [asked]; exact List.cons_ne_nil _ _)
  have some : sin :: more ≠ [] := List.cons_ne_nil _ _
  rw [asked] at first ⊢
  dsimp only at first
  cases checked : checkAddresses build 0 none (sin :: more) with
  | none =>
    rw [checked] at first
    refine iff_of_false (checksEvery_lost nonzero fun threshold ends => ?_) ?_
    · cases (ends_ends first).mp ((lap _).mp ends)
    · rintro (refused | ⟨_,same,_⟩)
      · cases checked.symm.trans refused
      · cases same
  | some result =>
    cases result with
    | none =>
      rw [checked] at first
      have refuses : ¬AllCapable hosts build := fun all =>
        refused_not_capable checked (asked ▸ asked_capable all here (fun _ member => absurd member List.not_mem_nil))
      refine iff_of_true (checksEvery_disabled nonzero refuses fun r => (lap r).trans (ends_ends first)) (.inl checked)
    | some next =>
      obtain ⟨index,tmpPtr⟩ := next
      obtain rfl := checkAddresses_counts checked some
      rw [checked] at first
      have fourth (r : Option Int) := (lap r).trans (ends_on first)
      have agreed : ¬Refused build none (sin :: more) := fun refused => by cases checked.symm.trans refused
      rw [or_iff_right agreed]
      cases there' : hosts[4]? with
      | none =>
        have few : hosts.length ≤ 4 := List.getElem?_eq_none_iff.mp there'
        have set := checksEvery_set nonzero fun r => (fourth r).trans (ends_ends (by rw [hostLap,there']))
        rw [set]
        constructor
        · intro all
          exact ⟨tmpPtr,rfl,.inl ⟨few,all⟩⟩
        · rintro ⟨_,_,⟨_,all⟩ | ⟨_,no,_⟩⟩
          · exact all
          · cases no
      | some fifth =>
        have many : ¬hosts.length ≤ 4 := Nat.not_le.mpr (List.getElem?_eq_some_iff.mp there').1
        have only : (∃ later, Option.some (Option.some (3,tmpPtr)) = Option.some (Option.some (3,later)) ∧
            ((hosts.length ≤ 4 ∧ AllCapable hosts build) ∨
              ∃ host, Option.some fifth = Option.some host ∧ Refused build later (addAddresses (sin :: more) host))) ↔
            Refused build tmpPtr (addAddresses (sin :: more) fifth) := by
          constructor
          · rintro ⟨later,same,⟨few,_⟩ | ⟨host,there,refused⟩⟩
            · exact absurd few many
            · cases same
              cases there
              exact refused
          · intro refused
            exact ⟨tmpPtr,rfl,.inr ⟨fifth,rfl,refused⟩⟩
        rw [only]
        exact checks_fifth nonzero (asked ▸ fun all => asked_capable all here fun _ member => absurd member List.not_mem_nil)
          checked fourth there'

end

/-- The first of two servers supports compression, the second does not answer. -/
def firstAnswers (sin : Nat) : Reply := if sin = 1 then .values (text "build\t3.0.0") else .failed

end Citrusleaf.Compression
