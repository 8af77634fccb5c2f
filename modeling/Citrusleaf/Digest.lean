import Citrusleaf.RequestRoundTrip

/-! The digest of a record. `citrusleaf_calculate_digest` and `write_fields` lay the type
and the bytes of the key in buffers of their own and hash them behind the set name. The
hash functions belong to the crypto library and are a parameter. -/
namespace Citrusleaf
open Lib

/-- Hashing in steps gives the hash of the concatenation. -/
structure Ripemd160 (δ : Type) where
  Ctx : Type
  ripemd160 : List UInt8 → δ
  init : Ctx
  update : Ctx → List UInt8 → Ctx
  final : Ctx → δ
  streamed : ∀ parts, final (List.foldl update init parts) = ripemd160 parts.flatten

/-- `cf_digest_compute2` -/
def cfDigestCompute2 (h : Ripemd160 δ) (data1 : List UInt8) (len1 : Nat) (data2 : List UInt8)
    (len2 : Nat) : Option δ :=
  if len1 = 0 then (readBytes data2 0 len2).map h.ripemd160
  else do
    let first ← readBytes data1 0 len1
    let second ← readBytes data2 0 len2
    return h.final (h.update (h.update h.init first) second)

/-- `set_len`, which is 0 without a set. -/
def setLen : Option CString → Option Nat
  | none => some 0
  | some str => intStrlen str

/-- The switch of `citrusleaf_calculate_digest`; `some none` is the return of an unknown type. -/
def layDigestKey (k : List UInt8) (key : ClObject) : Option (Option (List UInt8)) :=
  if key.type = clStr then do
    let k ← writeBytes k 0 [key.type.toUInt8]
    let str ← key.u.copy key.sz
    return some (← writeBytes k 1 str)
  else if key.type = clInt then do
    let k ← writeBytes k 0 [key.type.toUInt8]
    return some (← writeBytes k 1 (beBytes 8 key.u.toI64.toUInt64.toNat))
  else if isBlob key.type then do
    let k ← writeBytes k 0 [key.type.toUInt8]
    let blob ← key.u.copy key.sz
    return some (← writeBytes k 1 blob)
  else some none

/-- The return value and the digest. `stack` is what the array `k` holds at first. -/
def citrusleafCalculateDigest (h : Ripemd160 δ) (stack : Nat → UInt8) (set : Option CString)
    (key : ClObject) : Option (Int × Option δ) := do
  match ← layDigestKey ((List.range (key.sz + 1)).map stack) key with
  | none => return (-1,none)
  | some k =>
    let digest ← cfDigestCompute2 h (set.getD []) (← setLen set) k (key.sz + 1)
    return (0,some digest)

/-- The key section of `write_fields`, with the digest it leaves in `d_ret`. The digest is
taken from the field after the swap. An integer key is written twice with the same bytes. -/
def layKeyDigest (h : Ripemd160 δ) (set : Option CString) (buf : List UInt8) (mf : Nat)
    (key : ClObject) : Option (List UInt8 × Option Nat × Option δ) := do
  match ← layKey buf mf (some key) with
  | (buf,none) => return (buf,none,none)
  | (buf,some mfTmp) =>
    let digest ← cfDigestCompute2 h (set.getD []) (← setLen set) (buf.drop (mf + 5)) (key.sz + 1)
    return (buf,some mfTmp,some digest)

/-! ### What is hashed -/

/-- The set, the type of the key and its bytes, an integer as eight in network order. -/
def recordIdentity (set : Option CString) (key : ClObject) : List UInt8 :=
  set.getD [] ++ (key.type.toUInt8 :: key.wireValue)

variable {set : Option CString}

theorem setLen_short (short : ∀ s, set = some s → s.length < 2 ^ 31) :
    setLen set = some (set.getD []).length := by
  cases set with
  | none => rfl
  | some s => exact intStrlen_short (short s rfl)

/-- With whole strings, both forms hash the concatenation. -/
theorem cfDigestCompute2_eq (h : Ripemd160 δ) (set part after : List UInt8) (size : n = part.length) :
    cfDigestCompute2 h set set.length (part ++ after) n = some (h.ripemd160 (set ++ part)) := by
  have second := readBytes_at [] part after (p := 0) rfl size
  have first := readBytes_at [] set [] (p := 0) rfl rfl
  simp only [List.nil_append,List.append_nil] at first second
  cases set with
  | nil => simp [cfDigestCompute2,second]
  | cons c set =>
    have steps := h.streamed [c :: set,part]
    simp only [List.foldl_cons,List.foldl_nil,List.flatten_cons,List.flatten_nil,List.append_nil] at steps
    have some_set : (c :: set).length ≠ 0 := Nat.succ_ne_zero _
    simp only [cfDigestCompute2,if_neg some_set,first,second,steps,Option.bind_eq_bind,Option.bind_some,
      Option.pure_def]

/-- The types both switches have a case for. -/
def KeyType (type : UInt32) : Prop := type = clStr ∨ type = clInt ∨ isBlob type = true

instance : Decidable (KeyType type) := inferInstanceAs (Decidable (_ ∨ _ ∨ _))

theorem KeyType.not_null (typed : KeyType type) : type ≠ clNull := by
  rintro rfl
  exact absurd typed (by decide)

theorem layDigestKey_eq (sized : key.Sized) (typed : KeyType key.type) (room : k.length = key.sz + 1) :
    layDigestKey k key = some (some (key.type.toUInt8 :: key.wireValue)) := by
  obtain ⟨_,_,strInt,_⟩ := labels_distinct
  obtain ⟨head,rest,rfl,one,size⟩ := parts_of_length (m := 1) (n := key.sz) k (by omega)
  have length := sized.wireValue_length
  have labelled := writeBytes_at [] head rest [key.type.toUInt8] (p := 0) rfl one
  have copied := writeBytes_at [key.type.toUInt8] rest [] key.wireValue (p := 1) rfl (by omega)
  simp only [List.nil_append,List.append_nil,List.singleton_append] at labelled copied
  rcases sized.cases with ⟨null,_⟩ | ⟨int,_,wire⟩ | ⟨_,_,notInt,copy⟩
  · exact absurd null typed.not_null
  · rw [wire] at copied ⊢
    simp [layDigestKey,int] at labelled copied ⊢
    simp [strInt.symm,labelled,copied]
  · by_cases str : key.type = clStr
    · simp [layDigestKey,str] at labelled copied ⊢
      simp [labelled,copied,copy]
    · have blob : isBlob key.type = true := (typed.resolve_left str).resolve_left notInt
      simp [layDigestKey,str,notInt,blob,labelled,copied,copy]

theorem calculateDigest_eq (h : Ripemd160 δ) (stack : Nat → UInt8) (sized : key.Sized)
    (typed : KeyType key.type) (short : ∀ s, set = some s → s.length < 2 ^ 31) :
    citrusleafCalculateDigest h stack set key = some (0,some (h.ripemd160 (recordIdentity set key))) := by
  have laid := layDigestKey_eq (k := (List.range (key.sz + 1)).map stack) sized typed (by simp)
  have hashed := cfDigestCompute2_eq h (set.getD []) (key.type.toUInt8 :: key.wireValue) []
    (n := key.sz + 1) (by simp [sized.wireValue_length])
  rw [List.append_nil] at hashed
  simp only [citrusleafCalculateDigest,laid,setLen_short short,hashed,Option.bind_eq_bind,
    Option.bind_some,Option.pure_def,recordIdentity]

/-- The key section finds the bytes of the key in the field it has just laid. -/
theorem layKeyDigest_eq (h : Ripemd160 δ) (sized : key.Sized) (typed : KeyType key.type)
    (short : ∀ s, set = some s → s.length < 2 ^ 31) (room : mf + (6 + key.sz) ≤ buf.length) :
    ∃ buf' mfTmp, layKeyDigest h set buf mf key =
      some (buf',some mfTmp,some (h.ripemd160 (recordIdentity set key))) := by
  obtain ⟨before,rest,rfl,start,behind⟩ := parts_of_length (m := mf) (n := buf.length - mf) buf (by omega)
  rw [List.length_append] at room
  obtain ⟨old,after,rfl,size,_⟩ := parts_of_length (m := 6 + key.sz)
    (n := rest.length - (6 + key.sz)) rest (by omega)
  have field := keyField_eq sized typed.not_null
  have laid : layField (before ++ (old ++ after)) mf clMsgFieldTypeKey (key.sz + 2)
      (key.type.toUInt8 :: key.wireValue) = _ :=
    layField_eq before old after clMsgFieldTypeKey start.symm (by simp [sized.wireValue_length,size]; omega)
  have hashed := cfDigestCompute2_eq h (set.getD []) (key.type.toUInt8 :: key.wireValue) after
    (n := key.sz + 1) (by simp [sized.wireValue_length])
  have length : (key.type.toUInt8 :: key.wireValue).length + 1 = key.sz + 2 := by
    simp [sized.wireValue_length]
  have data : (before ++ (beBytes 4 (key.sz + 2) ++ ([clMsgFieldTypeKey] ++
      (key.type.toUInt8 :: key.wireValue ++ after)))).drop (mf + 5) =
      key.type.toUInt8 :: key.wireValue ++ after := by
    rw [← start,← List.drop_drop,List.drop_left,← List.append_assoc (beBytes 4 _),
      List.drop_left' (by simp)]
  rw [length] at field
  have written : layKeyDigest h set (before ++ (old ++ after)) mf key =
      some (before ++ (beBytes 4 (key.sz + 2) ++ ([clMsgFieldTypeKey] ++
        (key.type.toUInt8 :: key.wireValue ++ after))),some (mf + 4 + (key.sz + 2) % 2 ^ 32),
        some (h.ripemd160 (recordIdentity set key))) := by
    simp only [layKeyDigest,layKey,field,laid,data,setLen_short short,hashed,Option.bind_eq_bind,
      Option.bind_some,Option.pure_def,recordIdentity]
  exact ⟨_,_,written⟩

theorem key_rejected (h : Ripemd160 δ) (stack : Nat → UInt8) (set : Option CString) (buf : List UInt8)
    (mf : Nat) (untyped : ¬KeyType key.type) :
    citrusleafCalculateDigest h stack set key = some (-1,none) ∧
      layKeyDigest h set buf mf key = some (buf,none,none) := by
  simp only [KeyType,not_or] at untyped
  obtain ⟨notStr,notInt,notBlob⟩ := untyped
  simp [citrusleafCalculateDigest,layDigestKey,layKeyDigest,layKey,keyField,notStr,notInt,notBlob]

/-! ### The two computations agree -/

/-- Both functions return; one succeeds when the other accepts the key, and then both give the
hash of the record's identity. -/
structure InSync (h : Ripemd160 δ) (stack : Nat → UInt8) (set : Option CString) (buf : List UInt8)
    (mf : Nat) (key : ClObject) : Prop where
  returns : (citrusleafCalculateDigest h stack set key).isSome ∧ (layKeyDigest h set buf mf key).isSome
  accepted : (∃ digest, citrusleafCalculateDigest h stack set key = some (0,digest)) ↔
    ∃ buf' mfTmp digest, layKeyDigest h set buf mf key = some (buf',some mfTmp,digest)
  calculated : citrusleafCalculateDigest h stack set key = some (0,digest) →
    digest = some (h.ripemd160 (recordIdentity set key))
  written : layKeyDigest h set buf mf key = some (buf',some mfTmp,digest) →
    digest = some (h.ripemd160 (recordIdentity set key))

/-- The digests agree for every set that has an `int` length and every key that was
initialised, when an integer key has the size of an integer. -/
theorem digests_in_sync (h : Ripemd160 CfDigest) (stack : Nat → UInt8) (set : Option CString)
    (buf : List UInt8) (mf : Nat) (key : ClObject) (made : Initialised key)
    (own : key.type = clInt → key.sz = 8) (short : ∀ s, set = some s → s.length < 2 ^ 31)
    (room : mf + (6 + key.sz) ≤ buf.length) : InSync h stack set buf mf key := by
  by_cases typed : KeyType key.type
  · have sized : key.Sized := by
      apply made.sized
      · rcases typed with str | int | blob
        · exact .inr (.inr (.inl str))
        · exact .inr (.inl int)
        · exact .inr (.inr (.inr blob))
      · exact ⟨fun null => absurd null typed.not_null,own⟩
    have calculated := calculateDigest_eq h stack sized typed short
    obtain ⟨buf',mfTmp,written⟩ := layKeyDigest_eq h sized typed short room
    constructor <;> simp [calculated,written]
  · obtain ⟨calculated,written⟩ := key_rejected h stack set buf mf typed
    constructor <;> simp [calculated,written]

/-- Collect the input and hash it at the end. -/
def Ripemd160.buffered (hash : List UInt8 → δ) : Ripemd160 δ where
  Ctx := List UInt8
  ripemd160 := hash
  init := []
  update := (· ++ ·)
  final := hash
  streamed parts := by
    have collected (start : List UInt8) : parts.foldl (· ++ ·) start = start ++ parts.flatten := by
      induction parts generalizing start with
      | nil => simp
      | cons part parts ih => simp [ih]
    exact congrArg hash (collected [])

/-- The value of RIPEMD-160 on the key `abc` of the set `demo`; elsewhere the first bytes
stand for the digest. -/
def sampleRipemd160 : Ripemd160 CfDigest := .buffered fun bytes =>
  if bytes = text "demo" ++ 3 :: text "abc" then
    #v[91,183,195,81,208,5,103,220,218,189,84,101,142,31,152,229,233,100,183,68]
  else .ofFn fun i => bytes.getD i 0

theorem digests_in_sync_sample : InSync sampleRipemd160 (fun _ => 255) (some (text "demo"))
    (List.replicate 20 0) 5 (citrusleafObjectInitStr unsetObject 4096 (text "abc")) := by
  apply digests_in_sync
  · exact .str _ _ _ (by decide)
  · exact nofun
  · rintro s ⟨⟩
    decide
  · decide

/-- A set whose length is 0 as an `int` is left out of the digest. -/
theorem long_set_out_of_sync (h : Ripemd160 δ) (stack : Nat → UInt8) (buf : List UInt8) (mf : Nat)
    (sized : key.Sized) (typed : KeyType key.type) (long : str.length = 2 ^ 32)
    (differ : h.ripemd160 (key.type.toUInt8 :: key.wireValue) ≠
      h.ripemd160 (str ++ (key.type.toUInt8 :: key.wireValue))) :
    ¬InSync h stack (some str) buf mf key := by
  intro inSync
  have laid := layDigestKey_eq (k := (List.range (key.sz + 1)).map stack) sized typed (by simp)
  have hashed := cfDigestCompute2_eq h [] (key.type.toUInt8 :: key.wireValue) []
    (n := key.sz + 1) (by simp [sized.wireValue_length])
  have empty : setLen (some str) = some 0 := by simp [setLen,intStrlen,toInt,long]
  have fed : citrusleafCalculateDigest h stack (some str) key =
      some (0,some (h.ripemd160 (key.type.toUInt8 :: key.wireValue))) := by
    simp only [List.append_nil,List.nil_append,List.length_nil,cfDigestCompute2,if_true] at hashed
    simp only [citrusleafCalculateDigest,laid,empty,cfDigestCompute2,if_true,hashed,Option.bind_eq_bind,
      Option.bind_some,Option.pure_def]
  exact differ (Option.some.inj (inSync.calculated fed))

/-- A blob of nine bytes with the label of an integer, and a set whose length an `int` loses. -/
theorem int_label_out_of_sync :
    ¬InSync sampleRipemd160 (fun _ => 255) none (List.replicate 15 0) 0
      (citrusleafObjectInitBlob2 unsetObject 4096 (List.replicate 9 7) clInt) ∧
    ¬InSync sampleRipemd160 (fun _ => 0) (some (List.replicate (2 ^ 32) 97)) (List.replicate 14 0) 0
      (citrusleafObjectInitInt unsetObject 7) := by
  constructor
  · intro inSync
    have fed : citrusleafCalculateDigest sampleRipemd160 (fun _ => 255) none
        (citrusleafObjectInitBlob2 unsetObject 4096 (List.replicate 9 7) clInt) =
        some (0,some (sampleRipemd160.ripemd160 ([1,0,0,0,0,0,0,16,0,255]))) := by decide
    exact absurd (inSync.calculated fed) (by decide)
  · apply long_set_out_of_sync _ _ _ _ _ (.inr (.inl rfl)) List.length_replicate
    · have first (tail : List UInt8) : (sampleRipemd160.ripemd160 (97 :: tail))[0] = 97 := by
        have other : 97 :: tail ≠ text "demo" ++ 3 :: text "abc" := fun same =>
          absurd (List.cons.inj same).1 (by decide)
        simp [sampleRipemd160,Ripemd160.buffered,other]
      have whole : List.replicate (2 ^ 32) 97 = (97 : UInt8) :: List.replicate (2 ^ 32 - 1) 97 :=
        List.replicate_succ
      intro same
      rw [whole,List.cons_append] at same
      have gets := congrArg (·[0]) same
      simp only [first] at gets
      exact absurd gets (by decide)
    · exact (Initialised.int _ _).sized (.inr (.inl rfl)) ⟨fun null => absurd null (by decide),fun _ => rfl⟩

/-! ### What tells records apart -/

/-- A set and a key that `citrusleaf_calculate_digest` accepts. -/
structure RecordName where
  set : Option CString
  key : ClObject
  made : Initialised key
  typed : KeyType key.type
  own : key.type = clInt → key.sz = 8
  short : ∀ s, set = some s → s.length < 2 ^ 31

/-- A hash that gives back what it is fed. -/
def recorder : Ripemd160 (List UInt8) := .buffered id

namespace RecordName
variable (a b : RecordName)

/-- The bytes `citrusleaf_calculate_digest` feeds to the hash. -/
def fed (stack : Nat → UInt8) : Option (Int × Option (List UInt8)) :=
  citrusleafCalculateDigest recorder stack a.set a.key

def setName : CString := a.set.getD []

def Same : Prop := a.setName = b.setName ∧ a.key.type = b.key.type ∧ a.key.wireValue = b.key.wireValue

/-- The set of the second continues that of the first with the label of the key and some of
its bytes. -/
def Absorbs : Prop := ∃ middle, b.setName = a.setName ++ a.key.type.toUInt8 :: middle ∧
  a.key.wireValue = middle ++ b.key.type.toUInt8 :: b.key.wireValue

/-- A set name without any byte that labels a key. -/
def Plain : Prop := ∀ c ∈ a.setName, ¬KeyType c.toUInt32

theorem sized : a.key.Sized := by
  apply a.made.sized
  · rcases a.typed with str | int | blob
    · exact .inr (.inr (.inl str))
    · exact .inr (.inl int)
    · exact .inr (.inr (.inr blob))
  · exact ⟨fun null => absurd null a.typed.not_null,a.own⟩

theorem fed_eq (stack : Nat → UInt8) :
    a.fed stack = some (0,some (a.setName ++ a.key.type.toUInt8 :: a.key.wireValue)) :=
  calculateDigest_eq recorder stack a.sized a.typed a.short

theorem label_inj (same : a.key.type.toUInt8 = b.key.type.toUInt8) : a.key.type = b.key.type := by
  rw [← particle_type a.sized,← particle_type b.sized,same]

theorem Absorbs.not_plain (absorbs : a.Absorbs b) : ¬b.Plain := by
  obtain ⟨middle,longer,_⟩ := absorbs
  intro plain
  apply plain a.key.type.toUInt8
  · simp [longer]
  · rw [particle_type a.sized]
    exact a.typed

/-- The same bytes are hashed for the same record, or when one set name absorbs the other's
key; never for different records whose set names are plain. -/
theorem record_identity (stack other : Nat → UInt8) :
    (a.fed stack = b.fed other ↔ a.Same b ∨ a.Absorbs b ∨ b.Absorbs a) ∧
      (a.Plain → b.Plain → a.fed stack = b.fed other → a.Same b) := by
  have identity : a.fed stack = b.fed other ↔ a.Same b ∨ a.Absorbs b ∨ b.Absorbs a := by
    simp only [fed_eq,Option.some.injEq,Prod.mk.injEq,true_and,List.append_eq_append_iff]
    constructor
    · rintro (⟨middle,longer,rest⟩ | ⟨middle,longer,rest⟩)
      · cases middle with
        | nil =>
          obtain ⟨labels,bytes⟩ := List.cons.inj rest
          exact .inl ⟨by simpa using longer.symm,label_inj a b labels,bytes⟩
        | cons label middle =>
          obtain ⟨rfl,bytes⟩ := List.cons.inj rest
          exact .inr (.inl ⟨middle,longer,bytes⟩)
      · cases middle with
        | nil =>
          obtain ⟨labels,bytes⟩ := List.cons.inj rest
          exact .inl ⟨by simpa using longer,label_inj a b labels.symm,bytes.symm⟩
        | cons label middle =>
          obtain ⟨rfl,bytes⟩ := List.cons.inj rest
          exact .inr (.inr ⟨middle,longer,bytes⟩)
    · rintro (⟨sets,types,bytes⟩ | ⟨middle,longer,bytes⟩ | ⟨middle,longer,bytes⟩)
      · exact .inl ⟨[],by simp [sets],by simp [types,bytes]⟩
      · exact .inl ⟨a.key.type.toUInt8 :: middle,longer,by simp [bytes]⟩
      · exact .inr ⟨b.key.type.toUInt8 :: middle,longer,by simp [bytes]⟩
  refine ⟨identity,fun plain other_plain same => ?_⟩
  rcases identity.mp same with same | absorbs | absorbs
  · exact same
  · exact absurd other_plain absorbs.not_plain
  · exact absurd plain absorbs.not_plain

/-- The key `\x03b` without a set, and the key `b` in the set `\x03`. -/
def withoutSet : RecordName where
  set := none
  key := citrusleafObjectInitStr unsetObject 4096 [3,98]
  made := .str _ _ _ (by decide)
  typed := .inl rfl
  own := nofun
  short := nofun

def withLabelledSet : RecordName where
  set := some [3]
  key := citrusleafObjectInitStr unsetObject 4096 [98]
  made := .str _ _ _ (by decide)
  typed := .inl rfl
  own := nofun
  short := by rintro s ⟨⟩; decide

theorem labelled_set_collides : withoutSet.fed (fun _ => 0) = withLabelledSet.fed (fun _ => 0) ∧
    ¬withoutSet.Same withLabelledSet :=
  ⟨by decide,fun same => nomatch same.1⟩

end RecordName
end Citrusleaf
