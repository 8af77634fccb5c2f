import Citrusleaf.IndexKeys
import Citrusleaf.Lib.CStrings

/-! The key of a rollup record: account, hour and redirection joined by colons, in the two
copies of the code that build it. Nothing in an id is escaped. -/
namespace Citrusleaf

/-- `update_clicks` up to its key. The inner `none` is a return of -1; the outer one stands
for an hour written past its buffer. -/
def updateClicksKey (accountId redirectionId hour : CString) : Option (Option CString) := do
  let cDateHour ← dateHourBuffer (scanDate hourFormat hour)
  let indexKeyLen := accountId.length + cDateHour.length + 1
  if indexKeyLen > maxKeySize then return none
  else
    let indexKey := accountId ++ 58 :: cDateHour
    let rollupKeyLen := indexKeyLen + redirectionId.length + 1
    if rollupKeyLen > maxKeySize then return none
    else return some (indexKey ++ 58 :: redirectionId)

/-- What identifies a click, as it comes from the caller. -/
structure ClickTriple where
  accountId : CString
  hour : CString
  redirectionId : CString

/-- The hours from 1970 on, and as they are printed. -/
def ClickTriple.hours (t : ClickTriple) : Int := hourNumber (scanDate hourFormat t.hour)

def ClickTriple.printed (t : ClickTriple) : CString := makeDateHour (scanDate hourFormat t.hour)

/-- One of the two functions accepts the triple and builds the key. -/
inductive ClickTriple.Builds (t : ClickTriple) : CString → Prop where
  | putIndex (keys : PutIndexKeys) :
    putIndexKeys t.accountId t.redirectionId t.hour = some (some keys) → t.Builds keys.rollupKey
  | updateClicks (key : CString) :
    updateClicksKey t.accountId t.redirectionId t.hour = some (some key) → t.Builds key

structure ClickTriple.Same (t u : ClickTriple) : Prop where
  accountId : t.accountId = u.accountId
  hours : t.hours = u.hours
  redirectionId : t.redirectionId = u.redirectionId

/-- The account of `u` goes on over the colon, the hour and perhaps a part of the redirection
of `t`; what is left of that redirection is the hour and the redirection of `u`. -/
def ClickTriple.Shifted (t u : ClickTriple) : Prop :=
  ∃ part, u.accountId = t.accountId ++ 58 :: (t.printed ++ part) ∧
    58 :: t.redirectionId = part ++ 58 :: (u.printed ++ 58 :: u.redirectionId)

/-- Both functions build one key for one triple; two keys are equal for one record only, or
where an account id holds the colon that the other one ends at. -/
structure RollupKeys (t u : ClickTriple) : Prop where
  oneKey : updateClicksKey t.accountId t.redirectionId t.hour =
    (putIndexKeys t.accountId t.redirectionId t.hour).map (·.map PutIndexKeys.rollupKey)
  equal : ∀ k l, t.Builds k → u.Builds l → (k = l ↔ t.Same u ∨ t.Shifted u ∨ u.Shifted t)
  plain : 58 ∉ t.accountId → 58 ∉ u.accountId → ∀ k, t.Builds k → u.Builds k → t.Same u

theorem updateClicksKey_eq (accountId redirectionId hour : CString) :
    updateClicksKey accountId redirectionId hour =
      (putIndexKeys accountId redirectionId hour).map (·.map PutIndexKeys.rollupKey) := by
  unfold updateClicksKey putIndexKeys
  cases dateHourBuffer (scanDate hourFormat hour) with
  | none => rfl
  | some cDateHour =>
    simp only [Option.bind_eq_bind,Option.bind_some]
    split
    · rfl
    · split
      · rfl
      · rfl

/-- What is known of a key that was built. -/
theorem ClickTriple.Builds.cases {t : ClickTriple} (builds : t.Builds k) :
    0 ≤ t.hours ∧ k = t.accountId ++ 58 :: (t.printed ++ 58 :: t.redirectionId) := by
  obtain ⟨keys,built,rfl⟩ : ∃ keys, putIndexKeys t.accountId t.redirectionId t.hour = some (some keys) ∧
      keys.rollupKey = k := by
    cases builds with
    | putIndex keys built => exact ⟨keys,built,rfl⟩
    | updateClicks key built =>
      rw [updateClicksKey_eq] at built
      obtain ⟨answer,found,mapped⟩ := Option.map_eq_some_iff.mp built
      obtain ⟨keys,rfl,same⟩ := Option.map_eq_some_iff.mp mapped
      exact ⟨keys,found,same⟩
  have later : 0 ≤ t.hours := by
    by_contra early
    have long : ¬(makeDateHour (scanDate hourFormat t.hour)).length ≤ dateHourSize :=
      mt (makeDateHour_fits hourFormat hourFormat_narrow t.hour).mp early
    rw [putIndexKeys,dateHourBuffer,if_neg long] at built
    cases built
  refine ⟨later,?_⟩
  have keys_ := putIndexKeys_later t.accountId t.redirectionId t.hour later
  rw [built] at keys_
  simp only [Option.some.injEq] at keys_
  split at keys_
  · obtain rfl := Option.some.inj keys_
    rw [ClickTriple.printed,makeDateHour_later hourFormat hourFormat_narrow t.hour later]
    simp
  · cases keys_

/-! ### Joined texts -/

theorem decimal_plain (n : Nat) : 58 ∉ decimal n := by
  rw [decimal_eq]
  intro member
  obtain ⟨c,digit,colon⟩ := List.mem_map.mp member
  obtain ⟨_,high,byte⟩ := digit_byte (Nat.isDigit_of_mem_toDigits (by omega) (by omega) digit)
  rw [colon] at byte
  have value : (58 : UInt8).toNat = 58 := rfl
  omega

theorem decimal_inj (small : n < 2 ^ 63) (small' : m < 2 ^ 63) (same : decimal n = decimal m) : n = m := by
  have read := strtol_decimal n small
  rw [same,strtol_decimal m small'] at read
  omega

theorem printed_later {t : ClickTriple} (later : 0 ≤ t.hours) : t.printed = decimal t.hours.toNat :=
  makeDateHour_later hourFormat hourFormat_narrow t.hour later

theorem printed_plain {t : ClickTriple} (later : 0 ≤ t.hours) : 58 ∉ t.printed := by
  rw [printed_later later]
  exact decimal_plain _

theorem printed_inj {t u : ClickTriple} (later : 0 ≤ t.hours) (later' : 0 ≤ u.hours) (same : t.printed = u.printed) :
    t.hours = u.hours := by
  have range := hourNumber_range hourFormat hourFormat_narrow t.hour
  have range' := hourNumber_range hourFormat hourFormat_narrow u.hour
  rw [printed_later later,printed_later later'] at same
  unfold ClickTriple.hours at *
  have equal := decimal_inj (by omega) (by omega) same
  omega

/-- Where the first account is the shorter one, the second one goes on behind its colon. -/
theorem shifted_of_longer {t u : ClickTriple} (later : 0 ≤ t.hours) (c : UInt8) (more : CString)
    (longer : u.accountId = t.accountId ++ c :: more)
    (rest : 58 :: (t.printed ++ 58 :: t.redirectionId) = c :: more ++ 58 :: (u.printed ++ 58 :: u.redirectionId)) :
    t.Shifted u := by
  obtain ⟨rfl,behind⟩ := List.cons.inj rest
  rcases List.append_eq_append_iff.mp behind with ⟨part,rfl,left⟩ | ⟨part,hour,left⟩
  · exact ⟨part,longer,left⟩
  · rcases part with _ | ⟨d,part⟩
    · rw [List.append_nil] at hour
      exact ⟨[],by rw [longer,hour,List.append_nil],left.symm⟩
    · obtain ⟨rfl,_⟩ := List.cons.inj left
      exact absurd (by simp [hour]) (printed_plain later)

theorem ClickTriple.Shifted.joined {t u : ClickTriple} (shifted : t.Shifted u) :
    t.accountId ++ 58 :: (t.printed ++ 58 :: t.redirectionId) =
      u.accountId ++ 58 :: (u.printed ++ 58 :: u.redirectionId) := by
  obtain ⟨part,longer,left⟩ := shifted
  rw [longer,left]
  simp

theorem joined_iff {t u : ClickTriple} (later : 0 ≤ t.hours) (later' : 0 ≤ u.hours) :
    t.accountId ++ 58 :: (t.printed ++ 58 :: t.redirectionId) =
      u.accountId ++ 58 :: (u.printed ++ 58 :: u.redirectionId) ↔ t.Same u ∨ t.Shifted u ∨ u.Shifted t := by
  constructor
  · intro joined
    rcases List.append_eq_append_iff.mp joined with ⟨more,longer,rest⟩ | ⟨more,longer,rest⟩
    · rcases more with _ | ⟨c,more⟩
      · left
        obtain ⟨hour,redirection⟩ := Lib.field_inj (printed_plain later) (printed_plain later') (List.cons.inj rest).2
        exact ⟨by rw [longer,List.append_nil],printed_inj later later' hour,redirection⟩
      · exact .inr (.inl (shifted_of_longer later c more longer rest))
    · rcases more with _ | ⟨c,more⟩
      · left
        obtain ⟨hour,redirection⟩ := Lib.field_inj (printed_plain later') (printed_plain later) (List.cons.inj rest).2
        exact ⟨by rw [longer,List.append_nil],printed_inj later later' hour.symm,redirection.symm⟩
      · exact .inr (.inr (shifted_of_longer later' c more longer rest))
  · rintro (same | shifted | shifted)
    · have hour : t.printed = u.printed := by rw [printed_later later,printed_later later',same.hours]
      rw [same.accountId,hour,same.redirectionId]
    · exact shifted.joined
    · exact shifted.joined.symm

theorem rollup_keys (t u : ClickTriple) : RollupKeys t u := by
  have equal (k l : CString) (built : t.Builds k) (built' : u.Builds l) :
      k = l ↔ t.Same u ∨ t.Shifted u ∨ u.Shifted t := by
    obtain ⟨later,rfl⟩ := built.cases
    obtain ⟨later',rfl⟩ := built'.cases
    exact joined_iff later later'
  refine ⟨updateClicksKey_eq _ _ _,equal,fun plain plain' k built built' => ?_⟩
  rcases (equal k k built built').mp rfl with same | ⟨part,longer,_⟩ | ⟨part,longer,_⟩
  · exact same
  · exact absurd (by simp [longer]) plain'
  · exact absurd (by simp [longer]) plain

/-- Clicks of one account in 2012 and of another one in 1970 are counted in one record. -/
theorem rollup_key_shared :
    ∃ t u : ClickTriple, ∃ k, t.Builds k ∧ u.Builds k ∧ t.accountId ≠ u.accountId ∧ t.hours ≠ u.hours ∧
      t.redirectionId ≠ u.redirectionId := by
  refine ⟨⟨text "a",text "2012-01-01 05",text "7:b"⟩,⟨text "a:368165",text "1970-01-01 07",text "b"⟩,
    text "a:368165:7:b",?_⟩
  refine ⟨.updateClicks _ (by decide +kernel),.updateClicks _ (by decide +kernel),by decide,?_,by decide⟩
  decide +kernel

end Citrusleaf
