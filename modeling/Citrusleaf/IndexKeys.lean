import Citrusleaf.DateHour

/-! The key of the index record of an account and an hour, as `put_index` builds it for a
click and as `do_indexquery` builds it for each hour of a range. The inner `none` is a return
of -1; the outer one stands for a hour written past its buffer. -/
namespace Citrusleaf

def dateHourSize : Nat := 10

def maxKeySize : Nat := 160

/-- `make_date_hour` into a buffer of `DATE_HOUR_SIZE+1` bytes. -/
def dateHourBuffer (date : DateFields) : Option CString :=
  if (makeDateHour date).length ≤ dateHourSize then some (makeDateHour date) else none

/-! ### put_index -/

/-- "%4d-%2d-%2d %2d" -/
def hourFormat : List Directive := [.int 4,.char 45,.int 2,.char 45,.int 2,.space,.int 2]

structure PutIndexKeys where
  indexKey : CString
  rollupKey : CString
  deriving DecidableEq

/-- `put_index` up to its keys. -/
def putIndexKeys (accountId redirectionId hour : CString) : Option (Option PutIndexKeys) := do
  let cDateHour ← dateHourBuffer (scanDate hourFormat hour)
  let indexKeyLen := accountId.length + cDateHour.length + 1
  if indexKeyLen > maxKeySize then return none
  else
    let indexKey := accountId ++ 58 :: cDateHour
    let rollupKeyLen := indexKeyLen + redirectionId.length + 1
    if rollupKeyLen > maxKeySize then return none
    else return some ⟨indexKey,indexKey ++ 58 :: redirectionId⟩

/-! ### do_indexquery -/

/-- "%4d%2d%2d%2d" -/
def rangeFormat : List Directive := [.int 4,.int 2,.int 2,.int 2]

/-- One lap of the loop over the hours of a range. -/
def indexKeyAt (accountId : CString) (dateHour : UInt32) : Option CString :=
  if accountId.length + dateHourSize + 1 > maxKeySize then none
  else some (accountId ++ 58 :: decimalInt dateHour.toInt32.toInt)

/-- The keys whose digests `do_indexquery` looks up, with `index` set. -/
def doIndexqueryKeys (accountId beginDate endDate : CString) : Option (Option (List CString)) := do
  if beginDate.length ≠ dateHourSize ∨ endDate.length ≠ dateHourSize then return none
  else
    let cBeginDateHour ← dateHourBuffer (scanDate rangeFormat beginDate)
    let cEndDateHour ← dateHourBuffer (scanDate rangeFormat endDate)
    if cBeginDateHour = [] then return none
    else
      let beginDateHour := UInt32.ofInt (atoi cBeginDateHour)
      let endDateHour := UInt32.ofInt (atoi cEndDateHour)
      if endDateHour ≤ beginDateHour then return none
      else
        let nIndexLookups := (endDateHour - beginDateHour).toInt32.toInt.toNat
        return (List.range nIndexLookups).mapM fun i =>
          indexKeyAt accountId (beginDateHour + UInt32.ofNat i)

/-! ### One key -/

/-- A range of two dates of ten characters holds the hour of a click. -/
def HourInRange (hour beginDate endDate : CString) : Prop :=
  beginDate.length = dateHourSize ∧ endDate.length = dateHourSize ∧
  hourNumber (scanDate rangeFormat beginDate) ≤ hourNumber (scanDate hourFormat hour) ∧
  hourNumber (scanDate hourFormat hour) < hourNumber (scanDate rangeFormat endDate)

/-- Every hour fits its buffer, and what `put_index` stores under a key is looked up by
each query whose range holds the hour. -/
structure KeysAgree (accountId redirectionId hour beginDate endDate : CString) : Prop where
  hourFits : (makeDateHour (scanDate hourFormat hour)).length ≤ dateHourSize
  rangeFits : beginDate.length = dateHourSize → endDate.length = dateHourSize →
    (makeDateHour (scanDate rangeFormat beginDate)).length ≤ dateHourSize ∧
    (makeDateHour (scanDate rangeFormat endDate)).length ≤ dateHourSize
  looksUp : ∀ keys, putIndexKeys accountId redirectionId hour = some (some keys) →
    HourInRange hour beginDate endDate →
    ∃ lookups, doIndexqueryKeys accountId beginDate endDate = some (some lookups) ∧
      keys.indexKey ∈ lookups

theorem hourFormat_narrow : Narrow hourFormat := by
  intro width member
  simp [hourFormat] at member
  omega

theorem rangeFormat_narrow : Narrow rangeFormat := by
  intro width member
  simp [rangeFormat] at member
  omega

/-- An hour from 1970 on fills its buffer with its number. -/
theorem dateHourBuffer_later (narrow : Narrow format) (str : CString)
    (later : 0 ≤ hourNumber (scanDate format str)) :
    dateHourBuffer (scanDate format str) = some (decimal (hourNumber (scanDate format str)).toNat) := by
  have fits : (makeDateHour (scanDate format str)).length ≤ dateHourSize :=
    (makeDateHour_fits format narrow str).mpr later
  rw [dateHourBuffer,if_pos fits,makeDateHour_later format narrow str later]

/-- `put_index` builds its keys where the whole rollup key has room. -/
theorem putIndexKeys_later (accountId redirectionId hour : CString)
    (later : 0 ≤ hourNumber (scanDate hourFormat hour)) :
    let cDateHour := decimal (hourNumber (scanDate hourFormat hour)).toNat
    putIndexKeys accountId redirectionId hour =
      some (if accountId.length + cDateHour.length + redirectionId.length + 2 ≤ maxKeySize then
        some ⟨accountId ++ 58 :: cDateHour,accountId ++ 58 :: cDateHour ++ 58 :: redirectionId⟩
      else none) := by
  intro cDateHour
  have filled : dateHourBuffer (scanDate hourFormat hour) = some cDateHour :=
    dateHourBuffer_later hourFormat_narrow hour later
  simp only [putIndexKeys,filled,Option.bind_eq_bind,Option.bind_some]
  split
  · rename_i long
    have tooLong : ¬accountId.length + cDateHour.length + redirectionId.length + 2 ≤ maxKeySize := by
      omega
    simp [tooLong]
  · split
    · rename_i long
      have tooLong : ¬accountId.length + cDateHour.length + redirectionId.length + 2 ≤ maxKeySize := by
        omega
      simp [tooLong]
    · rename_i room
      have inside : accountId.length + cDateHour.length + redirectionId.length + 2 ≤ maxKeySize := by
        omega
      simp [inside]

theorem decimal_ne_nil (n : Nat) : decimal n ≠ [] := by
  simp [decimal_eq,Nat.toDigits_ne_nil]

theorem toInt_ofNat (n : Nat) (small : n < 2 ^ 31) : (UInt32.ofNat n).toInt32.toInt = n := by
  simp only [UInt32.toInt32_ofNat',Int32.toInt_ofNat']
  exact Int.bmod_eq_of_le (by unfold Int32.size; omega) (by unfold Int32.size; omega)

theorem ofInt_natCast (n : Nat) (small : n < 2 ^ 31) : UInt32.ofInt n = UInt32.ofNat n := by
  rw [UInt32.ofInt]
  congr 1
  omega

/-- "%d" prints an hour the way "%lu" does. -/
theorem indexKeyAt_eq (accountId : CString) (short : accountId.length ≤ 149) (hour : Nat)
    (small : hour < 2 ^ 31) :
    indexKeyAt accountId (UInt32.ofNat hour) = some (accountId ++ 58 :: decimal hour) := by
  have room : ¬accountId.length + dateHourSize + 1 > maxKeySize := by
    simp [dateHourSize,maxKeySize]
    omega
  have value := toInt_ofNat hour small
  simp only [indexKeyAt,room,if_false,value,decimalInt]
  simp

theorem mapM_some {f : α → Option β} {g : α → β} {items : List α}
    (all : ∀ item ∈ items, f item = some (g item)) : items.mapM f = some (items.map g) := by
  induction items with
  | nil => rfl
  | cons item items ih =>
    rw [List.mapM_cons,all item (.head _),ih fun other member => all other (.tail _ member)]
    rfl

/-- A range of hours from 1970 on is looked up hour by hour, unless the account is too long. -/
theorem doIndexqueryKeys_later (accountId beginDate endDate : CString)
    (beginLength : beginDate.length = dateHourSize) (endLength : endDate.length = dateHourSize)
    (first last : Nat) (begins : hourNumber (scanDate rangeFormat beginDate) = first)
    (ends : hourNumber (scanDate rangeFormat endDate) = last) (before : first < last) :
    doIndexqueryKeys accountId beginDate endDate =
      some (if accountId.length ≤ 149 then
        some ((List.range (last - first)).map fun i => accountId ++ 58 :: decimal (first + i))
      else none) := by
  have firstRange := hourNumber_range rangeFormat rangeFormat_narrow beginDate
  have lastRange := hourNumber_range rangeFormat rangeFormat_narrow endDate
  have firstFilled := dateHourBuffer_later rangeFormat_narrow beginDate (by omega)
  have lastFilled := dateHourBuffer_later rangeFormat_narrow endDate (by omega)
  rw [begins] at firstRange firstFilled
  rw [ends] at lastRange lastFilled
  rw [Int.toNat_natCast] at firstFilled lastFilled
  have firstRead : UInt32.ofInt (atoi (decimal first)) = UInt32.ofNat first := by
    rw [atoi_decimal first (by omega),ofInt_natCast first (by omega)]
  have lastRead : UInt32.ofInt (atoi (decimal last)) = UInt32.ofNat last := by
    rw [atoi_decimal last (by omega),ofInt_natCast last (by omega)]
  have ordered : ¬UInt32.ofNat last ≤ UInt32.ofNat first := by
    rw [UInt32.le_iff_toNat_le]
    simp
    omega
  have between : UInt32.ofNat last - UInt32.ofNat first = UInt32.ofNat (last - first) := by
    exact (UInt32.ofNat_sub before.le).symm
  have count : (UInt32.ofNat last - UInt32.ofNat first).toInt32.toInt.toNat = last - first := by
    rw [between,toInt_ofNat _ (by omega)]
    simp
  simp only [doIndexqueryKeys,beginLength,endLength,firstFilled,lastFilled,Option.bind_eq_bind,
    Option.bind_some,firstRead,lastRead,ordered,count,decimal_ne_nil,ne_eq,not_true_eq_false,
    or_self,if_false]
  congr 1
  split
  · rename_i short
    refine mapM_some fun i member => ?_
    have below := List.mem_range.mp member
    rw [← UInt32.ofNat_add]
    exact indexKeyAt_eq accountId short (first + i) (by omega)
  · rename_i long
    obtain ⟨hours,some⟩ : ∃ hours, last - first = hours + 1 := ⟨last - first - 1,by omega⟩
    have refused : indexKeyAt accountId (UInt32.ofNat first + UInt32.ofNat 0) = none := by
      have tooLong : accountId.length + dateHourSize + 1 > maxKeySize := by
        simp [dateHourSize,maxKeySize]
        omega
      simp only [indexKeyAt,tooLong,if_true]
    rw [some,List.range_succ_eq_map,List.mapM_cons,refused]
    rfl

/-- Between hours from 1970 on the two sides differ in the lengths they allow only. -/
theorem looksUp_iff {accountId redirectionId hour beginDate endDate : CString}
    (later : 0 ≤ hourNumber (scanDate hourFormat hour))
    (begins : HourInRange hour beginDate endDate → 0 ≤ hourNumber (scanDate rangeFormat beginDate)) :
    (∀ keys, putIndexKeys accountId redirectionId hour = some (some keys) →
      HourInRange hour beginDate endDate →
      ∃ lookups, doIndexqueryKeys accountId beginDate endDate = some (some lookups) ∧
        keys.indexKey ∈ lookups) ↔
    (HourInRange hour beginDate endDate →
      accountId.length + (makeDateHour (scanDate hourFormat hour)).length +
        redirectionId.length + 2 ≤ maxKeySize →
      accountId.length ≤ 149) := by
  rw [putIndexKeys_later accountId redirectionId hour later,
    makeDateHour_later hourFormat hourFormat_narrow hour later]
  -- The range as natural numbers, and what the query looks up in it.
  have query (within : HourInRange hour beginDate endDate) : ∃ first last : Nat,
      first ≤ (hourNumber (scanDate hourFormat hour)).toNat ∧
      (hourNumber (scanDate hourFormat hour)).toNat < last ∧
      doIndexqueryKeys accountId beginDate endDate =
        some (if accountId.length ≤ 149 then
          some ((List.range (last - first)).map fun i => accountId ++ 58 :: decimal (first + i))
        else none) := by
    have early := begins within
    obtain ⟨beginLength,endLength,low,high⟩ := within
    refine ⟨(hourNumber (scanDate rangeFormat beginDate)).toNat,
      (hourNumber (scanDate rangeFormat endDate)).toNat,by omega,by omega,?_⟩
    exact doIndexqueryKeys_later accountId beginDate endDate beginLength endLength _ _
      (Int.toNat_of_nonneg early).symm (Int.toNat_of_nonneg (by omega)).symm (by omega)
  constructor
  · intro all within room
    obtain ⟨first,last,_,_,keys⟩ := query within
    rw [if_pos room] at all
    obtain ⟨lookups,found,_⟩ := all _ rfl within
    by_contra long
    rw [keys,if_neg long] at found
    exact nomatch found
  · intro short keys built within
    obtain ⟨first,last,low,high,lookups⟩ := query within
    split at built
    · rename_i room
      obtain rfl := Option.some.inj (Option.some.inj built)
      rw [if_pos (short within room)] at lookups
      refine ⟨_,lookups,List.mem_map.mpr ⟨_,List.mem_range.mpr (Nat.sub_lt_sub_right low high),?_⟩⟩
      rw [Nat.add_sub_cancel' low]
    · exact nomatch built

/-- A click's key is looked up by every range around its hour exactly where no date is before
1970 and the account leaves room for ten digits of an hour. -/
theorem index_keys_agree (accountId redirectionId hour beginDate endDate : CString) :
    KeysAgree accountId redirectionId hour beginDate endDate ↔
      0 ≤ hourNumber (scanDate hourFormat hour) ∧
      (beginDate.length = dateHourSize → endDate.length = dateHourSize →
        0 ≤ hourNumber (scanDate rangeFormat beginDate) ∧
        0 ≤ hourNumber (scanDate rangeFormat endDate)) ∧
      (HourInRange hour beginDate endDate →
        accountId.length + (makeDateHour (scanDate hourFormat hour)).length +
          redirectionId.length + 2 ≤ maxKeySize →
        accountId.length ≤ 149) := by
  have hourFits := makeDateHour_fits hourFormat hourFormat_narrow hour
  have beginFits := makeDateHour_fits rangeFormat rangeFormat_narrow beginDate
  have endFits := makeDateHour_fits rangeFormat rangeFormat_narrow endDate
  constructor
  · intro agree
    have later := hourFits.mp agree.hourFits
    have range (beginLength : beginDate.length = dateHourSize) (endLength : endDate.length = dateHourSize) :
        0 ≤ hourNumber (scanDate rangeFormat beginDate) ∧
        0 ≤ hourNumber (scanDate rangeFormat endDate) :=
      ⟨beginFits.mp (agree.rangeFits beginLength endLength).1,
        endFits.mp (agree.rangeFits beginLength endLength).2⟩
    exact ⟨later,range,(looksUp_iff later fun within => (range within.1 within.2.1).1).mp agree.looksUp⟩
  · rintro ⟨later,range,short⟩
    exact ⟨hourFits.mpr later,
      fun beginLength endLength => ⟨beginFits.mpr (range beginLength endLength).1,
        endFits.mpr (range beginLength endLength).2⟩,
      (looksUp_iff later fun within => (range within.1 within.2.1).1).mpr short⟩

/-- An account of 150 characters is stored and never found; the hour before 1970 is printed
as twenty digits. -/
theorem index_key_lost :
    putIndexKeys (List.replicate 150 97) (text "1") (text "2012-01-01 05") =
      some (some ⟨List.replicate 150 97 ++ text ":368165",List.replicate 150 97 ++ text ":368165:1"⟩) ∧
    doIndexqueryKeys (List.replicate 150 97) (text "2012010100") (text "2012010200") = some none ∧
    (makeDateHour (scanDate hourFormat (text "1969-12-31 23"))).length = 20 ∧
    ¬KeysAgree (List.replicate 150 97) (text "1") (text "2012-01-01 05") (text "2012010100")
      (text "2012010200") := by
  have stored : putIndexKeys (List.replicate 150 97) (text "1") (text "2012-01-01 05") =
      some (some ⟨List.replicate 150 97 ++ text ":368165",
        List.replicate 150 97 ++ text ":368165:1"⟩) := by decide +kernel
  have rejected : doIndexqueryKeys (List.replicate 150 97) (text "2012010100") (text "2012010200") =
      some none := by decide +kernel
  refine ⟨stored,rejected,by decide +kernel,?_⟩
  intro agree
  obtain ⟨lookups,found,_⟩ := agree.looksUp _ stored (by
    refine ⟨by decide,by decide,?_,?_⟩ <;> decide +kernel)
  rw [rejected] at found
  exact nomatch found

end Citrusleaf
