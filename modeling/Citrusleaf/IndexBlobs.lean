import Citrusleaf.IndexQueryRuns
import Citrusleaf.PutIndex

/-! Index records as the server returns them: blobs of any size, with a count of their own that
nothing compares with the size. What the callback of a lookup, `group_query` and `put_index` read
and write, in bounds exactly under the conditions stated here. -/
namespace Citrusleaf
open Lib

/-! ### One lookup -/

/-- A call of `index_getmany_cb` that is not interrupted. -/
def callAlone (malloc : Malloc) : Nat → IndexLookups → IndexPlace → Option IndexLookups
  | 0,_,_ => none
  | n + 1,c,place => do
    match ← indexGetmanyCb.step malloc c place with
    | (c,none) => return c
    | (c,some next) => callAlone malloc n c next

/-- A record whose only bin is a blob. -/
structure IrBlob (r : CallbackRecord) (blob : List UInt8) : Prop where
  bin : ∃ bin address, r.bins = [bin] ∧ bin.object.type = clBlob ∧ bin.object.u = .ptr address blob ∧ address ≠ 0

/-- The count is inside the blob, and so is what is copied of it, if anything is. -/
structure CallbackFits (malloc : Malloc) (c : IndexLookups) (blob : List UInt8) : Prop where
  count : 8 ≤ blob.length
  copy : countOf blob = 0 ∨ c.irs[c.irsCurr]? ≠ some none ∨ mallocBlock malloc (recordSize (countOf blob)) = none ∨
    recordSize (countOf blob) ≤ blob.length

/-! ### group_query -/

/-- The records that lookups have left, in the order of `irs`. -/
def stored (irs : List (Option (List UInt8))) : List (List UInt8) := irs.filterMap id

/-- The digests of each record are inside its copy, and there is room for them in an array of so
many bytes behind those of the records before it. -/
def Copies (size offset : Nat) (records : List (List UInt8)) : Prop :=
  ∀ before record after, records = before ++ record :: after → countOf record ≠ 0 →
    8 + digestsSize (countOf record) ≤ record.length ∧ (offset + totalCount before) % 2 ^ 32 < 2 ^ 31 ∧
      (offset + totalCount before) % 2 ^ 32 * 20 + digestsSize (countOf record) ≤ size

structure QueryFits (malloc : Malloc) (irs : List (Option (List UInt8))) : Prop where
  counts : ∀ record ∈ stored irs, 8 ≤ record.length
  copies : totalCount (stored irs) % 2 ^ 64 = 0 ∨ mallocBlock malloc (totalCount (stored irs) * 20 % 2 ^ 64) = none ∨
    Copies (totalCount (stored irs) * 20 % 2 ^ 64) 0 (stored irs)

/-! ### put_index -/

/-- The loop of `record_is_new`, whose index is an `int`. -/
def recordIsNewFrom (new : CfDigest) (oldRecords : List UInt8) (count i : Nat) : Option Bool :=
  if i < count then do
    let oldRec ← readBytes oldRecords (8 + i * 20) 20
    if oldRec = new.toList then return false
    else if i + 1 < 2 ^ 31 then recordIsNewFrom new oldRecords count (i + 1)
    else none
  else some true
termination_by count - i

def recordIsNewBlob (new : CfDigest) : Option (List UInt8) → Option Bool
  | none => some true
  | some oldRecords => do recordIsNewFrom new oldRecords (← recordCount oldRecords) 0

/-- `old_count` -/
def oldCount : Option (List UInt8) → Option Nat
  | none => some 0
  | some old => recordCount old

/-- The copy of the old digests into the new record. -/
def copyOld (newPtr : List UInt8) (oldCount : Nat) : Option (List UInt8) → Option (List UInt8)
  | none => some newPtr
  | some old => if oldCount > 0 then (redirectId old oldCount).bind fun digests => writeBytes newPtr 8 digests else some newPtr

/-- `create_record`; the answer of `malloc` is written to as it is. -/
def createRecordBlob (malloc : Malloc) (new : CfDigest) (current : Option (List UInt8)) : Option (List UInt8) := do
  let oldCount ← oldCount current
  let newCount := (oldCount + 1) % 2 ^ 64
  let size := (8 + newCount * 20) % 2 ^ 32
  let newPtr ← mallocBlock malloc size
  let newPtr ← writeBytes newPtr 0 (leBytes 8 newCount)
  let newPtr ← copyOld newPtr oldCount current
  writeBytes newPtr (8 + (newCount + (2 ^ 64 - 1)) % 2 ^ 64 * 20) new.toList

/-- `put_index` from the blob it has read: the blob it writes, if the digest is new. -/
def putIndexBlob (malloc : Malloc) (new : CfDigest) (oldRecord : Option (List UInt8)) : Option (Option (List UInt8)) := do
  if ← recordIsNewBlob new oldRecord then (createRecordBlob malloc new oldRecord).map some else return none

/-- The digest is one of those inside the blob, among the first `count`. -/
def FoundFrom (new : CfDigest) (blob : List UInt8) (count i : Nat) : Prop :=
  ∃ k, i ≤ k ∧ k < count ∧ k < 2 ^ 31 ∧ 8 + k * 20 + 20 ≤ blob.length ∧ (blob.drop (8 + k * 20)).take 20 = new.toList

/-- All digests are inside the blob. -/
def Whole (blob : List UInt8) (count : Nat) : Prop := count < 2 ^ 31 ∧ 8 + count * 20 ≤ blob.length

/-- The digest is found before the blob ends, or the blob holds all digests and a `uint` the size of
the record with one more, which is allocated. -/
structure PutFits (malloc : Malloc) (new : CfDigest) (blob : List UInt8) : Prop where
  count : 8 ≤ blob.length
  digests : FoundFrom new blob (countOf blob) 0 ∨ 8 + countOf blob * 20 ≤ blob.length ∧
    28 + countOf blob * 20 < 2 ^ 32 ∧ mallocBlock malloc (28 + countOf blob * 20) ≠ none

/-! ### The callback -/

variable {blob : List UInt8} {malloc : Malloc}

theorem recordCount_checked (blob : List UInt8) :
    Checked (8 ≤ blob.length) (· = countOf blob) (recordCount blob) := by
  unfold countOf
  rw [recordCount,readBytes]
  split
  · rename_i inside
    exact .gives (by omega) rfl
  · rename_i outside
    exact .fails (by omega)

theorem recordCount_some (count : 8 ≤ blob.length) : recordCount blob = some (countOf blob) := by
  have checked := recordCount_checked blob
  cases read : recordCount blob with
  | none => exact absurd count (by rw [read] at checked; cases checked; assumption)
  | some n => rw [checked.meets read]

/-- The copy of a record into the block of its size. -/
theorem copy_checked (blob block : List UInt8) (size : block.length = n) :
    Checked (n ≤ blob.length) (fun out => out = blob.take n)
      ((readBytes blob 0 n).bind fun bytes => writeBytes block 0 bytes) := by
  by_cases inside : n ≤ blob.length
  · have length : (blob.take n).length = n := List.length_take_of_le inside
    have read : readBytes blob 0 n = some (blob.take n) := by rw [readBytes,if_pos (by omega),List.drop_zero]
    have written := writeBytes_front block (blob.take n) (by omega)
    rw [List.drop_eq_nil_of_le (by omega),List.append_nil] at written
    rw [read,Option.bind_some,written]
    exact .gives inside rfl
  · rw [readBytes,if_neg (by omega)]
    exact .fails inside

theorem callAlone_returns (step : indexGetmanyCb.step malloc c place = some (after,none)) :
    callAlone malloc (n + 1) c place = some after := by
  rw [callAlone,step]
  rfl

theorem callAlone_goes (step : indexGetmanyCb.step malloc c place = some (after,some next)) :
    callAlone malloc (n + 1) c place = callAlone malloc n after next := by
  rw [callAlone,step]
  rfl

/-- The entry that a call leaves a copy in. -/
theorem copying_checked {c : IndexLookups} {index : Nat} (count : 8 ≤ blob.length) (inside : index < c.irs.length) :
    Checked (mallocBlock malloc (recordSize (countOf blob)) = none ∨ recordSize (countOf blob) ≤ blob.length)
      (fun after => after.irs = c.irs.set index
        ((mallocBlock malloc (recordSize (countOf blob))).map fun _ => blob.take (recordSize (countOf blob))))
      (callAlone malloc 2 c (.storing index blob)) := by
  have read := recordCount_some count
  have stored : indexGetmanyCb.step malloc c (.storing index blob) =
      some ({c with irs := c.irs.set index (mallocBlock malloc (recordSize (countOf blob)))},some (.copying index blob)) := by
    simp [indexGetmanyCb,read]
  rw [callAlone_goes stored]
  cases given : mallocBlock malloc (recordSize (countOf blob)) with
  | none =>
    have returns : indexGetmanyCb.step malloc {c with irs := c.irs.set index none} (.copying index blob) =
        some ({c with irs := c.irs.set index none},none) := by
      simp [indexGetmanyCb,inside]
    rw [callAlone_returns returns]
    exact .gives (.inl rfl) rfl
  | some block =>
    have copy := copy_checked blob block (mallocBlock_length given)
    have step : indexGetmanyCb.step malloc {c with irs := c.irs.set index (some block)} (.copying index blob) =
        ((readBytes blob 0 (recordSize (countOf blob))).bind fun bytes => writeBytes block 0 bytes).map fun block =>
          ({c with irs := c.irs.set index (some block)},none) := by
      simp only [indexGetmanyCb,List.getElem?_set_self inside,read,Option.bind_eq_bind,Option.bind_some]
      cases readBytes blob 0 (recordSize (countOf blob)) with
      | none => rfl
      | some bytes =>
        simp only [Option.bind_some]
        cases writeBytes block 0 bytes with
        | none => rfl
        | some out => simp
    have single : callAlone malloc 1 {c with irs := c.irs.set index (some block)} (.copying index blob) =
        ((readBytes blob 0 (recordSize (countOf blob))).bind fun bytes => writeBytes block 0 bytes).map fun block =>
          {c with irs := c.irs.set index (some block)} := by
      rw [callAlone,step]
      cases (readBytes blob 0 (recordSize (countOf blob))).bind fun bytes => writeBytes block 0 bytes <;> rfl
    rw [single]
    refine (copy.map fun out same => ?_).congr (by simp)
    rw [same,Option.map_some]

/-- What a call on its own does with a blob. -/
theorem callAlone_checked {c : IndexLookups} {r : CallbackRecord} (ir : IrBlob r blob) :
    Checked (CallbackFits malloc c blob)
      (fun after => after.irs = if countOf blob = 0 ∨ c.irs[c.irsCurr]? ≠ some none then c.irs
        else c.irs.set c.irsCurr
          ((mallocBlock malloc (recordSize (countOf blob))).map fun _ => blob.take (recordSize (countOf blob))))
      (callAlone malloc 5 c (.called r)) := by
  obtain ⟨bin,address,bins,type,u,pointer⟩ := ir.bin
  have called : indexGetmanyCb.step malloc c (.called r) =
      (recordCount blob).map fun count => if count = 0 then (c,none) else (c,some (.adding blob)) := by
    simp [indexGetmanyCb,bins,type,u,pointer]
  by_cases count : 8 ≤ blob.length
  · rw [recordCount_some count,Option.map_some] at called
    by_cases zero : countOf blob = 0
    · rw [if_pos zero] at called
      rw [callAlone_returns called]
      exact .gives ⟨count,.inl zero⟩ (by rw [if_pos (.inl zero)])
    · rw [if_neg zero] at called
      rw [callAlone_goes called,callAlone_goes rfl]
      by_cases free : c.irs[c.irsCurr]? = some none
      · have testing : indexGetmanyCb.step malloc {c with irsCurr := c.irsCurr + 1,taken := c.taken ++ [blob]}
            (.testing c.irsCurr blob) =
            some ({c with irsCurr := c.irsCurr + 1,taken := c.taken ++ [blob]},some (.storing c.irsCurr blob)) := by
          simp [indexGetmanyCb,free]
        rw [callAlone_goes testing]
        have inside := (List.getElem?_eq_some_iff.mp free).1
        have copied := @copying_checked blob malloc {c with irsCurr := c.irsCurr + 1,taken := c.taken ++ [blob]}
          c.irsCurr count inside
        refine (copied.weaken fun after same => ?_).congr ?_
        · rw [same,if_neg (by simp [zero,free])]
        · exact ⟨fun fits => ⟨count,.inr (.inr fits)⟩,fun fits => by simpa [zero,free] using fits.copy⟩
      · have testing : indexGetmanyCb.step malloc {c with irsCurr := c.irsCurr + 1,taken := c.taken ++ [blob]}
            (.testing c.irsCurr blob) = some ({c with irsCurr := c.irsCurr + 1,taken := c.taken ++ [blob]},none) := by
          simp only [indexGetmanyCb]
        rw [callAlone_returns testing]
        exact .gives ⟨count,.inr (.inl free)⟩ (by rw [if_pos (.inr free)])
  · have short : recordCount blob = none := by rw [recordCount,readBytes,if_neg (by omega)]; rfl
    rw [short] at called
    rw [callAlone,called]
    exact .fails fun fits => count fits.count

/-! ### The digest array -/

theorem countDigests_checked (nDigests : Nat) (small : nDigests < 2 ^ 64) (irs : List (Option (List UInt8))) :
    Checked (∀ record ∈ stored irs, 8 ≤ record.length) (· = (nDigests + totalCount (stored irs)) % 2 ^ 64)
      (countDigests nDigests irs) := by
  induction irs generalizing nDigests with
  | nil => exact .gives nofun (Nat.mod_eq_of_lt small).symm
  | cons entry irs ih =>
    cases entry with
    | none => exact ih nDigests small
    | some record =>
      have step : Checked (8 ≤ record.length ∧ ∀ other ∈ stored irs, 8 ≤ other.length)
          (· = (nDigests + totalCount (stored (some record :: irs))) % 2 ^ 64) (countDigests nDigests (some record :: irs)) := by
        refine (recordCount_checked record).bind fun count _ same => ?_
        refine (ih _ (Nat.mod_lt _ (by decide))).weaken fun total equal => ?_
        have cons : totalCount (stored (some record :: irs)) = countOf record + totalCount (stored irs) :=
          totalCount_cons record (stored irs)
        rw [equal,cons,same]
        omega
      have all : (∀ other ∈ stored (some record :: irs), 8 ≤ other.length) ↔
          8 ≤ record.length ∧ ∀ other ∈ stored irs, 8 ≤ other.length := List.forall_mem_cons
      exact step.congr all.symm

theorem copies_cons (size offset : Nat) (record : List UInt8) (records : List (List UInt8)) :
    Copies size offset (record :: records) ↔
      (countOf record ≠ 0 → 8 + digestsSize (countOf record) ≤ record.length ∧ offset % 2 ^ 32 < 2 ^ 31 ∧
        offset % 2 ^ 32 * 20 + digestsSize (countOf record) ≤ size) ∧
      Copies size ((offset + countOf record) % 2 ^ 32) records := by
  have later (before : List (List UInt8)) : (offset + totalCount (record :: before)) % 2 ^ 32 =
      ((offset + countOf record) % 2 ^ 32 + totalCount before) % 2 ^ 32 := by
    rw [totalCount_cons]
    omega
  constructor
  · intro all
    refine ⟨all [] record records rfl,fun before other after parts => ?_⟩
    rw [← later]
    exact all (record :: before) other after (by rw [parts]; rfl)
  · rintro ⟨first,rest⟩ before other after parts
    rcases before with _ | ⟨head,before⟩
    · obtain ⟨rfl,_⟩ := List.cons.inj parts
      exact first
    · obtain ⟨rfl,tail⟩ := List.cons.inj parts
      rw [later]
      exact rest before other after tail

theorem redirectId_checked (record : List UInt8) (count : Nat) :
    Checked (8 + digestsSize count ≤ record.length) (fun digests => digests.length = digestsSize count)
      (redirectId record count) := by
  rw [redirectId,readBytes]
  split
  · rename_i inside
    refine .gives inside (List.length_take_of_le ?_)
    rw [List.length_drop]
    omega
  · rename_i outside
    exact .fails outside

theorem writeDigests_checked (digests bytes : List UInt8) (offset : Nat) :
    Checked (offset < 2 ^ 31 ∧ offset * 20 + bytes.length ≤ digests.length) (fun out => out.length = digests.length)
      (writeDigests digests offset bytes) := by
  rw [writeDigests]
  split
  · rename_i small
    exact (writeBytes_checked digests (offset * 20) bytes).congr (and_iff_right small).symm
  · rename_i large
    exact .fails fun both => large both.1

theorem copyDigests_checked (offset : Nat) (small : offset < 2 ^ 32) (digests : List UInt8)
    (irs : List (Option (List UInt8))) (counts : ∀ record ∈ stored irs, 8 ≤ record.length) :
    Checked (Copies digests.length offset (stored irs)) (fun out => out.1.length = digests.length)
      (copyDigests offset digests irs) := by
  induction irs generalizing offset digests with
  | nil => exact .gives (fun before record after parts => by simp [stored] at parts) rfl
  | cons entry irs ih =>
    cases entry with
    | none => exact (ih offset small digests counts).map fun _ same => same
    | some record =>
      obtain ⟨inside,others⟩ := List.forall_mem_cons.mp counts
      have shape : stored (some record :: irs) = record :: stored irs := rfl
      rw [shape,copyDigests,recordCount_some inside]
      refine Checked.congr ?_ (copies_cons _ _ _ _).symm
      rw [Nat.mod_eq_of_lt small]
      by_cases zero : countOf record = 0
      · rw [Option.bind_eq_bind,Option.bind_some,if_pos zero,zero,Nat.add_zero,Nat.mod_eq_of_lt small]
        have skipped : Checked (Copies digests.length offset (stored irs) ∧ True)
            (fun out : List UInt8 × List (Option (List UInt8)) => out.1.length = digests.length)
            ((copyDigests offset digests irs).bind fun last => some (last.1,some record :: last.2)) :=
          (ih offset small digests others).bind fun out _ same => Checked.pure same
        refine Checked.congr skipped ?_
        simp
      · rw [Option.bind_eq_bind,Option.bind_some,if_neg zero]
        have copied : Checked ((8 + digestsSize (countOf record) ≤ record.length) ∧
            (offset < 2 ^ 31 ∧ offset * 20 + digestsSize (countOf record) ≤ digests.length) ∧
            Copies digests.length ((offset + countOf record) % 2 ^ 32) (stored irs) ∧ True)
            (fun out : List UInt8 × List (Option (List UInt8)) => out.1.length = digests.length)
            ((redirectId record (countOf record)).bind fun bytes => (writeDigests digests offset bytes).bind fun out =>
              (copyDigests ((offset + countOf record) % 2 ^ 32) out irs).bind fun last => some (last.1,none :: last.2)) :=
          (redirectId_checked record (countOf record)).bind fun bytes _ width =>
            ((writeDigests_checked digests bytes offset).congr (by rw [width])).bind fun out _ same =>
              ((ih _ (Nat.mod_lt _ (by decide)) out others).congr (by rw [same])).bind fun last _ equal =>
                Checked.pure (equal.trans same)
        refine Checked.congr copied ?_
        simp [zero,and_assoc]

theorem groupQuery_iff (irs : List (Option (List UInt8))) : (groupQuery malloc irs).isSome ↔ QueryFits malloc irs := by
  have counted := countDigests_checked 0 (by decide) irs
  rw [Nat.zero_add] at counted
  rw [groupQuery]
  cases given : countDigests 0 irs with
  | none =>
    rw [given] at counted
    refine iff_of_false (by simp) fun fits => ?_
    cases counted
    exact absurd fits.counts ‹_›
  | some nDigests =>
    rw [given] at counted
    obtain ⟨counts,rfl⟩ : (∀ record ∈ stored irs, 8 ≤ record.length) ∧ nDigests = totalCount (stored irs) % 2 ^ 64 := by
      cases counted
      exact ⟨‹_›,‹_›⟩
    have size : totalCount (stored irs) % 2 ^ 64 * 20 % 2 ^ 64 = totalCount (stored irs) * 20 % 2 ^ 64 := by omega
    rw [Option.bind_eq_bind,Option.bind_some,size]
    by_cases zero : totalCount (stored irs) % 2 ^ 64 = 0
    · rw [if_pos zero]
      exact iff_of_true rfl ⟨counts,.inl zero⟩
    · rw [if_neg zero]
      cases block : mallocBlock malloc (totalCount (stored irs) * 20 % 2 ^ 64) with
      | none => exact iff_of_true rfl ⟨counts,.inr (.inl block)⟩
      | some digests =>
        have copied := (copyDigests_checked 0 (by decide) digests irs counts).bind fun out _ _ =>
          @Checked.pure (Option GroupDigests) (fun _ => True) (some ⟨totalCount (stored irs) % 2 ^ 64,out.1,out.2⟩) trivial
        refine copied.isSome_iff.trans ?_
        rw [mallocBlock_length block,and_true]
        constructor
        · exact fun fits => ⟨counts,.inr (.inr fits)⟩
        · intro fits
          rcases fits.copies with none_ | refused | inside
          · exact absurd none_ zero
          · rw [block] at refused
            cases refused
          · exact inside

/-! ### The new record -/

theorem FoundFrom.later {new : CfDigest} (other : (blob.drop (8 + i * 20)).take 20 ≠ new.toList) :
    FoundFrom new blob count i ↔ FoundFrom new blob count (i + 1) := by
  constructor
  · rintro ⟨k,from_,rest⟩
    have moved : k ≠ i := by
      rintro rfl
      exact other rest.2.2.2
    exact ⟨k,by omega,rest⟩
  · rintro ⟨k,from_,rest⟩
    exact ⟨k,by omega,rest⟩

/-- The loop stays inside the blob exactly if it ends at the digest or at the last one. -/
theorem recordIsNewFrom_checked (new : CfDigest) (blob : List UInt8) (count i : Nat) (below : i ≤ count)
    (small : i < 2 ^ 31) (inside : 8 + i * 20 ≤ blob.length) :
    Checked (FoundFrom new blob count i ∨ Whole blob count)
      (fun fresh => if fresh then Whole blob count ∧ ¬FoundFrom new blob count i else FoundFrom new blob count i)
      (recordIsNewFrom new blob count i) := by
  induction left : count - i generalizing i with
  | zero =>
    obtain rfl : i = count := by omega
    have whole : Whole blob i := ⟨small,inside⟩
    rw [recordIsNewFrom,if_neg (by omega)]
    refine .gives (.inr whole) ⟨whole,?_⟩
    rintro ⟨k,from_,before,_⟩
    omega
  | succ left ih =>
    rw [recordIsNewFrom,if_pos (by omega),readBytes]
    split
    · rename_i here
      rw [Option.bind_eq_bind,Option.bind_some]
      by_cases same : (blob.drop (8 + i * 20)).take 20 = new.toList
      · have found : FoundFrom new blob count i := ⟨i,Nat.le_refl i,by omega,small,here,same⟩
        rw [if_pos same]
        exact .gives (.inl found) found
      · rw [if_neg same]
        by_cases more : i + 1 < 2 ^ 31
        · rw [if_pos more]
          have rest := ih (i + 1) (by omega) more (by omega) (by omega)
          rwa [← FoundFrom.later same] at rest
        · rw [if_neg more]
          refine .fails ?_
          rintro (⟨k,from_,_,within,_,equal⟩ | whole)
          · obtain rfl : k = i := by omega
            exact same equal
          · have := whole.1
            omega
    · rename_i outside
      refine .fails ?_
      rintro (⟨k,from_,_,_,within,_⟩ | whole)
      · omega
      · have := whole.2
        omega

/-- The new record: one more, the old digests, and the new one. -/
def appended (blob : List UInt8) (new : CfDigest) : List UInt8 :=
  leBytes 8 (countOf blob + 1) ++ ((blob.drop 8).take (countOf blob * 20) ++ new.toList)

/-- The copy of the old digests behind the new count. -/
theorem copyOld_eq (blob head room : List UInt8) (whole : Whole blob count) (front : head.length = 8)
    (fits : count * 20 ≤ room.length) :
    copyOld (head ++ room) count (some blob) =
      some (head ++ ((blob.drop 8).take (count * 20) ++ room.drop (count * 20))) := by
  obtain ⟨small,inside⟩ := whole
  have width : ((blob.drop 8).take (count * 20)).length = count * 20 :=
    List.length_take_of_le (by rw [List.length_drop]; omega)
  rw [copyOld]
  split
  · have size : digestsSize count = count * 20 := by rw [digestsSize]; omega
    have written := writeBytes_behind head room ((blob.drop 8).take (count * 20)) (by omega)
    rw [front,width] at written
    rw [redirectId,size,readBytes,if_pos (by omega),Option.bind_some,written]
  · rename_i zero
    obtain rfl : count = 0 := by omega
    simp

/-- `create_record` from its allocation on. -/
theorem createRecordBlob_eq (new : CfDigest) (blob : List UInt8) (whole : Whole blob (countOf blob)) :
    createRecordBlob malloc new (some blob) =
      (mallocBlock malloc ((28 + countOf blob * 20) % 2 ^ 32)).bind fun newPtr =>
        (writeBytes newPtr 0 (leBytes 8 (countOf blob + 1))).bind fun newPtr =>
          (copyOld newPtr (countOf blob) (some blob)).bind fun newPtr =>
            writeBytes newPtr (8 + countOf blob * 20) new.toList := by
  obtain ⟨small,inside⟩ := whole
  have count : oldCount (some blob) = some (countOf blob) := recordCount_some (by omega)
  have next : (countOf blob + 1) % 2 ^ 64 = countOf blob + 1 := Nat.mod_eq_of_lt (by omega)
  have last : (countOf blob + 1 + (2 ^ 64 - 1)) % 2 ^ 64 = countOf blob := by omega
  have size : 8 + (countOf blob + 1) * 20 = 28 + countOf blob * 20 := by omega
  rw [createRecordBlob,count,Option.bind_eq_bind,Option.bind_some,next]
  dsimp only
  rw [last,size]
  rfl

theorem createRecordBlob_checked (malloc : Malloc) (new : CfDigest) (blob : List UInt8) (whole : Whole blob (countOf blob)) :
    Checked (28 + countOf blob * 20 < 2 ^ 32 ∧ mallocBlock malloc (28 + countOf blob * 20) ≠ none)
      (fun newPtr => newPtr = appended blob new) (createRecordBlob malloc new (some blob)) := by
  rw [createRecordBlob_eq new blob whole]
  by_cases fits : 28 + countOf blob * 20 < 2 ^ 32
  · rw [Nat.mod_eq_of_lt fits]
    cases given : mallocBlock malloc (28 + countOf blob * 20) with
    | none => exact .fails fun both => both.2 rfl
    | some newPtr =>
      have size := mallocBlock_length given
      have head := writeBytes_front newPtr (leBytes 8 (countOf blob + 1)) (by rw [leBytes_length]; omega)
      rw [leBytes_length] at head
      have copied := copyOld_eq blob (leBytes 8 (countOf blob + 1)) (newPtr.drop 8) whole (leBytes_length _ _)
        (by rw [List.length_drop]; omega)
      have width : ((blob.drop 8).take (countOf blob * 20)).length = countOf blob * 20 :=
        List.length_take_of_le (by rw [List.length_drop]; have := whole.2; omega)
      have last := writeBytes_at (leBytes 8 (countOf blob + 1) ++ (blob.drop 8).take (countOf blob * 20))
        ((newPtr.drop 8).drop (countOf blob * 20)) [] new.toList
        (by rw [List.length_append,leBytes_length,width] : 8 + countOf blob * 20 = _)
        (by rw [List.length_drop,List.length_drop,Vector.length_toList]; omega)
      rw [List.append_nil,List.append_nil,List.append_assoc,List.append_assoc] at last
      rw [Option.bind_some,head,Option.bind_some,copied,Option.bind_some,last]
      exact .gives ⟨fits,nofun⟩ rfl
  · cases made : (mallocBlock malloc ((28 + countOf blob * 20) % 2 ^ 32)).bind fun newPtr =>
        (writeBytes newPtr 0 (leBytes 8 (countOf blob + 1))).bind fun newPtr =>
          (copyOld newPtr (countOf blob) (some blob)).bind fun newPtr =>
            writeBytes newPtr (8 + countOf blob * 20) new.toList with
    | none => exact .fails fun both => fits both.1
    | some newPtr =>
      -- The last write would be behind the block.
      obtain ⟨block,given,made⟩ := Option.bind_eq_some_iff.mp made
      obtain ⟨counted,first,made⟩ := Option.bind_eq_some_iff.mp made
      obtain ⟨filled,copied,made⟩ := Option.bind_eq_some_iff.mp made
      have size := mallocBlock_length given
      have wrapped : (28 + countOf blob * 20) % 2 ^ 32 < 2 ^ 32 := Nat.mod_lt _ (by decide)
      have kept : filled.length = counted.length := by
        rw [copyOld] at copied
        split at copied
        · obtain ⟨digests,_,copied⟩ := Option.bind_eq_some_iff.mp copied
          exact (writeBytes_length copied).1
        · rw [Option.some.inj copied]
      have room := (writeBytes_length made).2
      rw [Vector.length_toList,kept,(writeBytes_length first).1,size] at room
      omega

theorem putIndexBlob_iff (new : CfDigest) (blob : List UInt8) :
    (putIndexBlob malloc new (some blob)).isSome ↔ PutFits malloc new blob := by
  by_cases count : 8 ≤ blob.length
  · have read : recordIsNewBlob new (some blob) = recordIsNewFrom new blob (countOf blob) 0 := by
      rw [recordIsNewBlob,recordCount_some count]
      rfl
    have scanned := recordIsNewFrom_checked new blob (countOf blob) 0 (Nat.zero_le _) (by decide) count
    rw [putIndexBlob,read]
    cases result : recordIsNewFrom new blob (countOf blob) 0 with
    | none =>
      rw [result] at scanned
      refine iff_of_false (by simp) fun fits => ?_
      cases scanned with
      | fails broken =>
        rcases fits.digests with found | ⟨inside,small,_⟩
        · exact broken (.inl found)
        · exact broken (.inr ⟨by omega,inside⟩)
    | some fresh =>
      have meets := scanned.meets result
      cases fresh with
      | false => exact iff_of_true rfl ⟨count,.inl meets⟩
      | true =>
        obtain ⟨whole,absent⟩ : Whole blob (countOf blob) ∧ ¬FoundFrom new blob (countOf blob) 0 := meets
        have made := createRecordBlob_checked malloc new blob whole
        rw [Option.bind_eq_bind,Option.bind_some,if_pos rfl,Option.isSome_map]
        refine made.isSome_iff.trans ?_
        constructor
        · exact fun fits => ⟨count,.inr ⟨whole.2,fits⟩⟩
        · intro fits
          rcases fits.digests with found | ⟨_,rest⟩
          · exact absurd found absent
          · exact rest
  · have short : recordCount blob = none := by rw [recordCount,readBytes,if_neg (by omega)]; rfl
    refine iff_of_false ?_ fun fits => count fits.count
    rw [putIndexBlob,recordIsNewBlob,short]
    simp

/-! ### Records that were made by create_record -/

/-- The bytes of a record with as many digests as it counts. -/
def recordBytes (record : PutIndex.IndexRecord) : List UInt8 :=
  leBytes 8 record.count ++ record.redirectId.flatMap Vector.toList

theorem cellAt_digests (digests : List CfDigest) (k : Nat) (inside : k < digests.length) :
    cellAt 20 (digests.flatMap Vector.toList) k = digests[k].toList := by
  induction digests generalizing k with
  | nil => cases inside
  | cons digest digests ih =>
    have width : digest.toList.length = 1 * 20 := Vector.length_toList
    rw [List.flatMap_cons,cellAt_append width]
    cases k with
    | zero =>
      rw [if_pos (by omega),cellAt,Nat.zero_mul,List.drop_zero,List.take_of_length_le (by omega)]
      rfl
    | succ k =>
      rw [if_neg (by omega),Nat.add_sub_cancel,ih k (by simpa using inside)]
      rfl

theorem recordBytes_count (record : PutIndex.IndexRecord) (small : record.count < 2 ^ 31) :
    countOf (recordBytes record) = record.count := by
  have read : recordCount (recordBytes record) = some record.count := by
    have head := readBytes_at [] (leBytes 8 record.count) (record.redirectId.flatMap Vector.toList) rfl
      (leBytes_length 8 record.count).symm
    rw [List.nil_append,List.length_nil] at head
    rw [recordCount,recordBytes,head,Option.map_some,leNat_leBytes_of_lt (by omega)]
  rw [countOf,read]
  rfl

theorem recordBytes_drop (record : PutIndex.IndexRecord) :
    (recordBytes record).drop 8 = record.redirectId.flatMap Vector.toList :=
  List.drop_left' (leBytes_length 8 record.count)

theorem appended_record (record : PutIndex.IndexRecord) (new : CfDigest)
    (counted : record.count = record.redirectId.length) (small : record.count < 2 ^ 31) :
    appended (recordBytes record) new = recordBytes (PutIndex.createRecord (some record) new) := by
  have digests : ((recordBytes record).drop 8).take (record.count * 20) = record.redirectId.flatMap Vector.toList := by
    rw [recordBytes_drop,List.take_of_length_le]
    rw [digests_length,counted,Nat.mul_comm]
  have all : record.redirectId.take record.count = record.redirectId := List.take_of_length_le (by omega)
  rw [appended,recordBytes_count record small,digests]
  simp only [recordBytes,PutIndex.createRecord,all,List.flatMap_append,List.flatMap_singleton]

/-- On such a record the bytes are those of the record that is made of it, and they fit exactly if a
`uint` holds its size. -/
theorem putIndexBlob_record (new : CfDigest) (record : PutIndex.IndexRecord)
    (counted : record.count = record.redirectId.length) (small : record.count < 2 ^ 31)
    (holds : PutIndex.blockHolds (PutIndex.createRecord (some record) new) = true) (gives : ∀ n, (malloc n).isSome) :
    putIndexBlob malloc new (some (recordBytes record)) =
      some (if PutIndex.recordIsNew new (some record) then
        some (recordBytes (PutIndex.createRecord (some record) new)) else none) := by
  have count := recordBytes_count record small
  have behind := recordBytes_drop record
  have length : (recordBytes record).length = 8 + record.count * 20 := by
    rw [recordBytes,List.length_append,leBytes_length,digests_length,counted,Nat.mul_comm]
  have whole : Whole (recordBytes record) (countOf (recordBytes record)) := by
    rw [count]
    exact ⟨small,by omega⟩
  have found : FoundFrom new (recordBytes record) (countOf (recordBytes record)) 0 ↔ new ∈ record.redirectId := by
    have cell (k : Nat) (inside : k < record.redirectId.length) :
        ((recordBytes record).drop (8 + k * 20)).take 20 = record.redirectId[k].toList := by
      rw [← List.drop_drop,behind]
      exact cellAt_digests record.redirectId k inside
    rw [count,List.mem_iff_getElem]
    constructor
    · rintro ⟨k,_,below,_,_,same⟩
      rw [cell k (by omega)] at same
      exact ⟨k,by omega,Vector.toList_inj.mp same⟩
    · rintro ⟨k,below,rfl⟩
      exact ⟨k,Nat.zero_le k,by omega,by omega,by omega,cell k below⟩
  have isNew : PutIndex.recordIsNew new (some record) = true ↔ new ∉ record.redirectId := by
    simp only [PutIndex.recordIsNew,counted,List.take_length,List.all_eq_true,bne_iff_ne]
    exact ⟨fun differ member => differ new member rfl,fun absent digest member same => absent (same ▸ member)⟩
  have scanned := recordIsNewFrom_checked new (recordBytes record) (countOf (recordBytes record)) 0 (Nat.zero_le _)
    (by decide) (by omega)
  have read : recordIsNewBlob new (some (recordBytes record)) =
      recordIsNewFrom new (recordBytes record) (countOf (recordBytes record)) 0 := by
    rw [recordIsNewBlob,recordCount_some (by omega)]
    rfl
  obtain ⟨fresh,result⟩ := Option.isSome_iff_exists.mp (scanned.isSome_iff.mpr (.inr whole))
  have meets := scanned.meets result
  rw [putIndexBlob,read,result,Option.bind_eq_bind,Option.bind_some]
  cases fresh with
  | false =>
    have old : new ∈ record.redirectId := found.mp meets
    rw [if_neg Bool.false_ne_true,if_neg (mt isNew.mp (not_not.mpr old))]
    rfl
  | true =>
    have absent : new ∉ record.redirectId := fun member => meets.2 (found.mpr member)
    have fits : 28 + countOf (recordBytes record) * 20 < 2 ^ 32 := by
      have room : 8 + (record.count + 1) * 20 ≤ (8 + (record.count + 1) * 20) % 2 ^ 32 := of_decide_eq_true holds
      rw [count]
      omega
    obtain ⟨block,given,_⟩ := mallocBlock_gives gives (28 + countOf (recordBytes record) * 20)
    have made := createRecordBlob_checked malloc new (recordBytes record) whole
    obtain ⟨bytes,created⟩ := Option.isSome_iff_exists.mp (made.isSome_iff.mpr ⟨fits,by rw [given]; nofun⟩)
    rw [if_pos rfl,if_pos (isNew.mpr absent),created,made.meets created,appended_record record new counted small]
    rfl

/-! ### All blobs -/

/-- Blobs that hold all their digests are copied in bounds, as long as an `int` counts these. -/
theorem whole_query_fits (irs : List (Option (List UInt8)))
    (whole : ∀ record ∈ stored irs, Whole record (countOf record)) (few : totalCount (stored irs) < 2 ^ 31) :
    QueryFits malloc irs := by
  refine ⟨fun record member => ?_,.inr (.inr fun before record after parts _ => ?_)⟩
  · have := (whole record member).2
    omega
  · obtain ⟨small,inside⟩ := whole record (by rw [parts]; simp)
    have total : totalCount (stored irs) = totalCount before + (countOf record + totalCount after) := by
      rw [parts,totalCount,List.map_append,List.sum_append_nat,List.map_cons,List.sum_cons]
      rfl
    have size : digestsSize (countOf record) = countOf record * 20 := by rw [digestsSize]; omega
    have array : totalCount (stored irs) * 20 % 2 ^ 64 = totalCount (stored irs) * 20 := Nat.mod_eq_of_lt (by omega)
    have start : (0 + totalCount before) % 2 ^ 32 = totalCount before := by omega
    rw [size,array,start]
    omega

/-- What the three functions access is inside exactly under their conditions, for every blob. -/
theorem index_blobs_inside (malloc : Malloc) (new : CfDigest) :
    (∀ c r blob, IrBlob r blob → ((callAlone malloc 5 c (.called r)).isSome ↔ CallbackFits malloc c blob)) ∧
    (∀ irs, (groupQuery malloc irs).isSome ↔ QueryFits malloc irs) ∧
    ∀ blob, (putIndexBlob malloc new (some blob)).isSome ↔ PutFits malloc new blob :=
  ⟨fun _ _ _ ir => (callAlone_checked ir).isSome_iff,groupQuery_iff,putIndexBlob_iff new⟩

/-- The answer to a lookup that holds a blob. -/
def irAnswer (blob : List UInt8) : CallbackRecord :=
  ⟨[],none,none,5,6,[⟨BinName.zero,⟨clBlob,blob.length,.ptr 1 blob⟩⟩]⟩

/-- A count of one digest without the digest is read over by the callback and by `put_index`; the
count 0x3333333333333333 leaves a copy of four bytes that `group_query` reads eight of. -/
theorem blob_read_over :
    let malloc : Malloc := fun _ => some fun _ => 0
    callAlone malloc 5 ⟨[none],0,[]⟩ (.called (irAnswer (leBytes 8 1))) = none ∧
    putIndexBlob malloc (Vector.replicate 20 7) (some (leBytes 8 1)) = none ∧
    (callAlone malloc 5 ⟨[none],0,[]⟩ (.called (irAnswer (List.replicate 8 0x33)))).map IndexLookups.irs =
      some [some (List.replicate 4 0x33)] ∧
    groupQuery malloc [some (List.replicate 4 0x33)] = none := by
  intro malloc
  refine ⟨by decide +kernel,?_,by decide +kernel,by decide +kernel⟩
  rw [← Option.not_isSome_iff_eq_none,putIndexBlob_iff]
  rintro ⟨_,⟨k,_,_,_,inside,_⟩ | ⟨inside,_⟩⟩
  · rw [leBytes_length] at inside
    omega
  · have count : countOf (leBytes 8 1) = 1 := by decide
    rw [leBytes_length,count] at inside
    omega

end Citrusleaf
