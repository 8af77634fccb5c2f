import Citrusleaf.IndexBlobs
import Citrusleaf.Lib.Keyed
import Citrusleaf.PutIndexRuns
import Citrusleaf.RollupKeys

/-! Clicks from `put_index` to the digests of an index query. Each index key has its record on
the server, with the calls of `put_index` that build this key; a query reads the records of
the hours of its range one by one, while further calls go on. -/
namespace Citrusleaf.IndexedClicks
open Lib PutIndex

variable (digest : CString → CfDigest) (click : Call → ClickTriple)

/-- The keys that `put_index` builds for the click of a call, if it gets past them. -/
def keysOf (call : Call) : Option PutIndexKeys :=
  (putIndexKeys (click call).accountId (click call).redirectionId (click call).hour).join

/-- `new_recd`; `digest` gives the digest of a key in the set "dr". -/
def newRecd (call : Call) : CfDigest := digest (((keysOf click call).map PutIndexKeys.rollupKey).getD [])

/-- The calls of one index key: a call reads the record of its own key only. -/
def clickStep (key : CString) (s : IndexState) (event : IndexEvent) : IndexState :=
  match event with
  | .read call =>
    if (keysOf click call).map PutIndexKeys.indexKey = some key then indexStep (newRecd digest click) s event else s
  | _ => indexStep (newRecd digest click) s event

/-- Every index key with its record and its calls. -/
abbrev Store := CString → IndexState

def Store.start : Store := fun _ => .start

def Store.run (events : List (CString × IndexEvent)) : Store :=
  Lib.run (keyedStep (clickStep digest click)) .start events

/-- The call has got past its index step with success. -/
def Store.Finished (s : Store) (call : Call) (keys : PutIndexKeys) : Prop :=
  keysOf click call = some keys ∧ (s keys.indexKey).phase call = .finished true

/-- A lookup brings the callback the stored record, in its 'ir' bin. -/
def Carries (r : CallbackRecord) (record : IndexRecord) : Prop :=
  ∃ bin address, r.bins = [bin] ∧ bin.object.type = clBlob ∧ bin.object.u = .ptr address (recordBytes record) ∧
    address ≠ 0

/-- The records that the lookups of some keys read, each after what `later` has added until then. -/
def recordsRead (events : List (CString × IndexEvent)) (later : CString → List (CString × IndexEvent))
    (keys : List CString) : List IndexRecord :=
  keys.filterMap fun key => (Store.run digest click (events ++ later key) key).server.map Prod.snd

/-! ### The records of the store -/

/-- The digest belongs to a click whose index key is this one. -/
def Named (key : CString) (d : CfDigest) : Prop :=
  ∃ call keys, keysOf click call = some keys ∧ keys.indexKey = key ∧ d = digest keys.rollupKey

/-- Every record that is stored, being written or on its way holds digests of the key's own clicks. -/
structure Origin (key : CString) (s : IndexState) : Prop where
  server : ∀ d ∈ PutIndex.stored s.server, Named digest click key d
  writing : ∀ call clWP record try_, s.phase call = .writing clWP record try_ →
    ∀ d ∈ record.redirectId, Named digest click key d
  requests : ∀ r ∈ s.requests, ∀ d ∈ r.record.redirectId, Named digest click key d

variable {digest click}

theorem newRecd_keys (built : keysOf click call = some keys) : newRecd digest click call = digest keys.rollupKey := by
  rw [newRecd,built]
  rfl

theorem createRecord_mem (member : d ∈ (createRecord current new).redirectId) :
    d = new ∨ ∃ old, current = some old ∧ d ∈ old.redirectId := by
  cases current with
  | none => exact .inl (List.mem_singleton.mp member)
  | some old =>
    rcases List.mem_append.mp member with kept | last
    · exact .inr ⟨old,rfl,List.mem_of_mem_take kept⟩
    · exact .inl (List.mem_singleton.mp last)

theorem startPut_writing (writing : startPut clWP record = .writing clWP' record' try_) : record' = record := by
  rw [startPut] at writing
  split at writing
  · injection writing with _ same
    exact same.symm
  · cases writing

theorem afterGet_writing (writing : afterGet new (getAll server) = .writing clWP record try_) :
    ∀ d ∈ record.redirectId, d = new ∨ d ∈ PutIndex.stored server := by
  intro d member
  rcases server with _ | ⟨generation,current⟩
  · obtain rfl := startPut_writing writing
    rcases createRecord_mem member with same | ⟨old,absent,_⟩
    · exact .inl same
    · cases absent
  · rw [getAll,afterGet] at writing
    split at writing
    · cases writing
    · rw [if_neg (by simp)] at writing
      split at writing
      · obtain rfl := startPut_writing writing
        rcases createRecord_mem member with same | ⟨old,there,kept⟩
        · exact .inl same
        · obtain rfl := Option.some.inj there
          exact .inr kept
      · cases writing

theorem Origin.setPhase (origin : Origin digest click key s)
    (named : ∀ clWP record try_, phase = .writing clWP record try_ → ∀ d ∈ record.redirectId, Named digest click key d) :
    Origin digest click key (setPhase s call phase) := by
  refine ⟨origin.server,fun other clWP record try_ writing => ?_,origin.requests⟩
  dsimp only [PutIndex.setPhase] at writing
  split at writing
  · exact named clWP record try_ writing
  · exact origin.writing other clWP record try_ writing

theorem afterPut_not_writing (clWP : ClWriteParameters) (rv : PutResult) : afterPut clWP rv ≠ .writing clWP' record try_ := by
  intro writing
  rw [afterPut] at writing
  by_cases again : rv = if clWP.unique then .failKeyExists else .failGeneration
  · rw [if_pos again] at writing
    cases writing
  · rw [if_neg again] at writing
    cases writing

theorem Origin.step (origin : Origin digest click key s) (event : IndexEvent) :
    Origin digest click key (clickStep digest click key s event) := by
  cases event with
  | read call =>
    rw [clickStep]
    split
    · rename_i own
      obtain ⟨keys,built,same⟩ := Option.map_eq_some_iff.mp own
      unfold indexStep
      dsimp only
      split
      · refine origin.setPhase fun clWP record try_ writing d member => ?_
        rcases afterGet_writing writing d member with new | old
        · exact ⟨call,keys,built,same,new.trans (newRecd_keys built)⟩
        · exact origin.server d old
      · exact origin
    · exact origin
  | readFails call =>
    unfold clickStep indexStep
    dsimp only
    split
    · exact origin.setPhase fun _ _ _ writing => nomatch writing
    · exact origin
  | send call =>
    unfold clickStep indexStep
    dsimp only
    split
    · rename_i clWP record try_ writing
      have named := origin.writing call clWP record try_ writing
      have sent : Origin digest click key (PutIndex.setPhase s call (.writing clWP record (try_ + 1))) := by
        refine origin.setPhase fun _ other _ same => ?_
        injection same with _ same
        exact same ▸ named
      refine ⟨origin.server,sent.writing,fun r member => ?_⟩
      rcases List.mem_append.mp member with old | new
      · exact origin.requests r old
      · obtain rfl := List.mem_singleton.mp new
        exact named
    · exact origin
  | arrive i next =>
    unfold clickStep indexStep
    dsimp only
    cases found : s.requests[i]? with
    | none => exact origin
    | some r =>
      dsimp only
      have dropped : ∀ r ∈ s.requests.eraseIdx i, ∀ d ∈ r.record.redirectId, Named digest click key d :=
        fun r member => origin.requests r (List.mem_of_mem_eraseIdx member)
      split
      · split
        · exact ⟨origin.requests r (List.mem_of_getElem? found),origin.writing,dropped⟩
        · exact origin
      · exact ⟨origin.server,origin.writing,dropped⟩
  | loseRequest i =>
    exact ⟨origin.server,origin.writing,fun r member => origin.requests r (List.mem_of_mem_eraseIdx member)⟩
  | respond i =>
    unfold clickStep indexStep
    dsimp only
    split
    · exact origin
    · split
      · split
        · exact origin.setPhase fun _ _ _ writing => absurd writing (afterPut_not_writing _ _)
        · exact origin
      · exact origin
  | putFails call =>
    unfold clickStep indexStep
    dsimp only
    split
    · exact origin.setPhase fun _ _ _ writing => absurd writing (afterPut_not_writing _ _)
    · exact origin

theorem inv_step (inv : Inv (newRecd digest click) s) (event : IndexEvent) :
    Inv (newRecd digest click) (clickStep digest click key s event) ∧
      ∀ d ∈ PutIndex.stored s.server, d ∈ PutIndex.stored (clickStep digest click key s event).server := by
  have done : Inv (newRecd digest click) (indexStep (newRecd digest click) s event) ∧
      ∀ d ∈ PutIndex.stored s.server, d ∈ PutIndex.stored (indexStep (newRecd digest click) s event).server :=
    ⟨inv.step event,fun d member => inv.stored_kept event member⟩
  cases event with
  | read call =>
    rw [clickStep]
    split
    · exact done
    · exact ⟨inv,fun d member => member⟩
  | _ => exact done

/-- What is known of every key after any run. -/
structure StoreSound (digest : CString → CfDigest) (click : Call → ClickTriple) (s : Store) : Prop where
  inv : ∀ key, Inv (newRecd digest click) (s key)
  origin : ∀ key, Origin digest click key (s key)

theorem store_sound (digest : CString → CfDigest) (click : Call → ClickTriple) (events : List (CString × IndexEvent)) : StoreSound digest click (Store.run digest click events) := by
  have start (key : CString) : Inv (newRecd digest click) .start ∧ Origin digest click key .start :=
    ⟨.start,nofun,nofun,nofun⟩
  have preserved (key : CString) (s : IndexState) (event : IndexEvent)
      (held : Inv (newRecd digest click) s ∧ Origin digest click key s) :
      Inv (newRecd digest click) (clickStep digest click key s event) ∧
        Origin digest click key (clickStep digest click key s event) := ⟨(inv_step held.1 event).1,held.2.step event⟩
  have all (key : CString) := run_invariant (preserved key) (start key) (eventsFor key events)
  refine ⟨fun key => ?_,fun key => ?_⟩
  · rw [Store.run,run_keyed]
    exact (all key).1
  · rw [Store.run,run_keyed]
    exact (all key).2

/-- What a key holds it still holds after more events of any keys. -/
theorem store_keeps (events later : List (CString × IndexEvent)) (key : CString)
    (member : d ∈ PutIndex.stored (Store.run digest click events key).server) :
    d ∈ PutIndex.stored (Store.run digest click (events ++ later) key).server := by
  have sound := (store_sound digest click events).inv key
  rw [Store.run,run_append,run_keyed]
  rw [Store.run] at member sound
  have preserved (s : IndexState) (event : IndexEvent)
      (held : Inv (newRecd digest click) s ∧ d ∈ PutIndex.stored s.server) :
      Inv (newRecd digest click) (clickStep digest click key s event) ∧
        d ∈ PutIndex.stored (clickStep digest click key s event).server :=
    ⟨(inv_step held.1 event).1,(inv_step held.1 event).2 d held.2⟩
  exact (run_invariant preserved ⟨sound,member⟩ (eventsFor key later)).2

/-- A call that is through has its digest in the record of its key. -/
theorem finished_stored (finished : Store.Finished click (Store.run digest click events) call keys) :
    digest keys.rollupKey ∈ PutIndex.stored (Store.run digest click events keys.indexKey).server := by
  obtain ⟨built,through⟩ := finished
  have sound := ((store_sound digest click events).inv keys.indexKey).phases call
  have named : newRecd digest click call = digest keys.rollupKey := newRecd_keys built
  rw [through] at sound
  exact named ▸ sound

/-! ### The keys of a query -/

/-- The hours of a query that gets past its dates, and its keys. -/
structure HoursOf (accountId beginDate endDate : CString) (keys : List CString) (first last : Nat) : Prop where
  beginLength : beginDate.length = dateHourSize
  endLength : endDate.length = dateHourSize
  begins : hourNumber (scanDate rangeFormat beginDate) = first
  ends : hourNumber (scanDate rangeFormat endDate) = last
  lookups : keys = (List.range (last - first)).map fun i => accountId ++ 58 :: decimal (first + i)

theorem dateHourBuffer_some (narrow : Narrow format) (given : dateHourBuffer (scanDate format str) = some c) :
    ∃ n : Nat, hourNumber (scanDate format str) = n ∧ c = decimal n := by
  have later : 0 ≤ hourNumber (scanDate format str) := by
    rw [dateHourBuffer] at given
    split at given
    · rename_i fits
      exact (makeDateHour_fits format narrow str).mp fits
    · cases given
  rw [dateHourBuffer_later narrow str later] at given
  exact ⟨_,(Int.toNat_of_nonneg later).symm,(Option.some.inj given).symm⟩

theorem query_hours (range : doIndexqueryKeys accountId beginDate endDate = some (some keys)) :
    ∃ first last, HoursOf accountId beginDate endDate keys first last := by
  have parts := range
  rw [doIndexqueryKeys] at parts
  split at parts
  · cases parts
  · rename_i lengths
    obtain ⟨beginLength,endLength⟩ := not_or.mp lengths
    have beginLength := not_not.mp beginLength
    have endLength := not_not.mp endLength
    cases beginGiven : dateHourBuffer (scanDate rangeFormat beginDate) with
    | none => simp [beginGiven] at parts
    | some cBegin =>
      cases endGiven : dateHourBuffer (scanDate rangeFormat endDate) with
      | none => simp [beginGiven,endGiven] at parts
      | some cEnd =>
        obtain ⟨first,begins,rfl⟩ := dateHourBuffer_some rangeFormat_narrow beginGiven
        obtain ⟨last,ends,rfl⟩ := dateHourBuffer_some rangeFormat_narrow endGiven
        have firstRange := hourNumber_range rangeFormat rangeFormat_narrow beginDate
        have lastRange := hourNumber_range rangeFormat rangeFormat_narrow endDate
        rw [begins] at firstRange
        rw [ends] at lastRange
        have before : first < last := by
          by_contra excess
          have firstRead : UInt32.ofInt (atoi (decimal first)) = UInt32.ofNat first := by
            rw [atoi_decimal first (by omega),ofInt_natCast first (by omega)]
          have lastRead : UInt32.ofInt (atoi (decimal last)) = UInt32.ofNat last := by
            rw [atoi_decimal last (by omega),ofInt_natCast last (by omega)]
          have order : UInt32.ofNat last ≤ UInt32.ofNat first := by
            rw [UInt32.le_iff_toNat_le]
            simp
            omega
          simp [beginGiven,endGiven,decimal_ne_nil,firstRead,lastRead,order] at parts
        have keys_ := doIndexqueryKeys_later accountId beginDate endDate beginLength endLength first last begins ends before
        rw [range] at keys_
        refine ⟨first,last,beginLength,endLength,begins,ends,?_⟩
        split at keys_
        · exact Option.some.inj (Option.some.inj keys_)
        · cases keys_

/-- The keys of a range are one for each hour. -/
theorem HoursOf.nodup (hours : HoursOf accountId beginDate endDate keys first last) : keys.Nodup := by
  have lastRange := hourNumber_range rangeFormat rangeFormat_narrow endDate
  rw [hours.ends] at lastRange
  rw [hours.lookups]
  refine List.Nodup.map_on (fun i inside j inside' same => ?_) List.nodup_range
  have below := List.mem_range.mp inside
  have below' := List.mem_range.mp inside'
  have tails := List.cons.inj (List.append_cancel_left same)
  have equal := decimal_inj (by omega) (by omega) tails.2
  omega

/-- The keys of a call, in terms of its click. -/
theorem keysOf_cases (built : keysOf click call = some keys) :
    0 ≤ (click call).hours ∧ keys.indexKey = (click call).accountId ++ 58 :: decimal (click call).hours.toNat ∧
      keys.rollupKey = keys.indexKey ++ 58 :: (click call).redirectionId := by
  have given : putIndexKeys (click call).accountId (click call).redirectionId (click call).hour = some (some keys) :=
    Option.join_eq_some_iff.mp built
  have builds : (click call).Builds keys.rollupKey := .putIndex keys given
  have later := builds.cases.1
  refine ⟨later,?_⟩
  rw [putIndexKeys_later _ _ _ later,Option.some.injEq] at given
  split at given
  · obtain rfl := Option.some.inj given
    exact ⟨rfl,rfl⟩
  · cases given

/-- An account and an hour make one index key. -/
theorem indexKey_inj (small : n < 2 ^ 63) (small' : m < 2 ^ 63) (same : a ++ 58 :: decimal n = b ++ 58 :: decimal m) :
    a = b ∧ n = m := by
  have turned := congrArg List.reverse same
  simp only [List.reverse_append,List.reverse_cons,List.append_assoc,List.singleton_append] at turned
  have plain (k : Nat) : 58 ∉ (decimal k).reverse := fun member => decimal_plain k (List.mem_reverse.mp member)
  obtain ⟨hour,account⟩ := Lib.field_inj (plain n) (plain m) turned
  exact ⟨List.reverse_injective account,decimal_inj small small' (List.reverse_injective hour)⟩

/-- The query looks up the key of a click exactly if the click is of the account and in the range. -/
theorem HoursOf.mem_iff (hours : HoursOf accountId beginDate endDate keys first last)
    (built : keysOf click call = some ks) :
    ks.indexKey ∈ keys ↔ (click call).accountId = accountId ∧ HourInRange (click call).hour beginDate endDate := by
  obtain ⟨later,key,_⟩ := keysOf_cases built
  have lastRange := hourNumber_range rangeFormat rangeFormat_narrow endDate
  have hourRange := hourNumber_range hourFormat hourFormat_narrow (click call).hour
  rw [hours.ends] at lastRange
  rw [ClickTriple.hours] at later key
  rw [hours.lookups,key,HourInRange,hours.begins,hours.ends,List.mem_map]
  constructor
  · rintro ⟨i,inside,same⟩
    have below := List.mem_range.mp inside
    obtain ⟨account,hour⟩ := indexKey_inj (by omega) (by omega) same
    exact ⟨account.symm,hours.beginLength,hours.endLength,by omega,by omega⟩
  · rintro ⟨account,_,_,low,high⟩
    refine ⟨(hourNumber (scanDate hourFormat (click call).hour)).toNat - first,List.mem_range.mpr (by omega),?_⟩
    rw [account,Nat.add_sub_cancel' (by omega)]

/-! ### The digests that the lookups bring -/

/-- The digests of the records that the lookups read, key by key. -/
def digestsRead (digest : CString → CfDigest) (click : Call → ClickTriple) (events : List (CString × IndexEvent))
    (later : CString → List (CString × IndexEvent)) (keys : List CString) : List CfDigest :=
  keys.flatMap fun key => PutIndex.stored (Store.run digest click (events ++ later key) key).server

theorem digestsRead_eq (digest : CString → CfDigest) (click : Call → ClickTriple) (events : List (CString × IndexEvent)) (later : CString → List (CString × IndexEvent))
    (keys : List CString) :
    (recordsRead digest click events later keys).flatMap (·.redirectId) = digestsRead digest click events later keys := by
  rw [recordsRead,digestsRead,List.flatMap_def,List.map_filterMap]
  induction keys with
  | nil => rfl
  | cons key keys ih =>
    rw [List.flatMap_cons,← ih,List.filterMap_cons]
    cases held : (Store.run digest click (events ++ later key) key).server with
    | none => rfl
    | some stored_ => rfl

theorem recordsRead_sound (member : record ∈ recordsRead digest click events later keys) : Sound record := by
  obtain ⟨key,_,read⟩ := List.mem_filterMap.mp member
  obtain ⟨⟨generation,_⟩,held,rfl⟩ := Option.map_eq_some_iff.mp read
  exact ((store_sound digest click (events ++ later key)).inv key).sound generation _ held

/-- The clicks of the account and the range that are through are read, each read digest is of such a click, and
where no two of these share a digest none is read twice. -/
theorem digestsRead_exact (hours : HoursOf accountId beginDate endDate keys first last)
    (events : List (CString × IndexEvent)) (later : CString → List (CString × IndexEvent)) :
    (∀ call ks, Store.Finished click (Store.run digest click events) call ks → (click call).accountId = accountId →
      HourInRange (click call).hour beginDate endDate →
      digest ks.rollupKey ∈ digestsRead digest click events later keys) ∧
    (∀ d ∈ digestsRead digest click events later keys, ∃ call ks, keysOf click call = some ks ∧
      d = digest ks.rollupKey ∧ (click call).accountId = accountId ∧ HourInRange (click call).hour beginDate endDate) ∧
    ((∀ call other ks ks', keysOf click call = some ks → keysOf click other = some ks' →
      digest ks.rollupKey = digest ks'.rollupKey → ks.indexKey = ks'.indexKey) →
      (digestsRead digest click events later keys).Nodup) := by
  refine ⟨fun call ks finished account within => ?_,fun d member => ?_,fun apart => ?_⟩
  · refine List.mem_flatMap.mpr ⟨ks.indexKey,(hours.mem_iff finished.1).mpr ⟨account,within⟩,?_⟩
    exact store_keeps events (later ks.indexKey) ks.indexKey (finished_stored finished)
  · obtain ⟨key,looked,held⟩ := List.mem_flatMap.mp member
    obtain ⟨call,ks,built,rfl,named⟩ := ((store_sound digest click (events ++ later key)).origin key).server d held
    obtain ⟨account,within⟩ := (hours.mem_iff built).mp looked
    exact ⟨call,ks,built,named,account,within⟩
  · refine List.nodup_flatMap.mpr ⟨fun key _ => ?_,hours.nodup.imp fun differ d here there => ?_⟩
    · cases held : (Store.run digest click (events ++ later key) key).server with
      | none => exact List.nodup_nil
      | some record =>
        exact (((store_sound digest click (events ++ later key)).inv key).sound record.1 record.2 held).distinct
    · obtain ⟨call,ks,built,rfl,named⟩ := ((store_sound digest click _).origin _).server d here
      obtain ⟨other,ks',built',rfl,named'⟩ := ((store_sound digest click _).origin _).server d there
      exact differ (apart call other ks ks' built built' (named.symm.trans named'))

/-! ### Blobs -/

theorem cellsOf_digests (ds : List CfDigest) : cellsOf 20 (ds.flatMap Vector.toList) = ds.map Vector.toList := by
  induction ds with
  | nil => rfl
  | cons d ds ih =>
    have one : d.toList.length = 1 * 20 := d.length_toList
    have single : cellsOf 20 d.toList = [d.toList] := by
      rw [cellsOf,one]
      exact congrArg (· :: []) (List.take_of_length_le (le_of_eq one))
    rw [List.flatMap_cons,cellsOf_append (by omega) one,ih,single,List.singleton_append,List.map_cons]

theorem recordBytes_length (record : IndexRecord) : (recordBytes record).length = 8 + 20 * record.redirectId.length := by
  rw [recordBytes,List.length_append,digests_length,leBytes_length]

theorem recordBytes_matching (sound : Sound record) (small : record.count < 2 ^ 31) : Matching (recordBytes record) := by
  have count := recordBytes_count record small
  exact ⟨by rw [recordBytes_length,count,sound.counted],by rw [count]; exact small⟩

theorem digestsOf_recordBytes (record : IndexRecord) : digestsOf (recordBytes record) = record.redirectId.map Vector.toList := by
  rw [digestsOf,recordBytes_drop,cellsOf_digests]

theorem Carries.blob (carries : Carries r record) : indexBlob r = some (recordBytes record) := by
  obtain ⟨bin,address,bins,_,u,_⟩ := carries
  rw [indexBlob,bins]
  simp only [u]

theorem Carries.wellFormed (carries : Carries r record) (matching : Matching (recordBytes record)) : WellFormedIndex r := by
  obtain ⟨bin,address,bins,type,u,there⟩ := carries
  exact ⟨bin,address,recordBytes record,bins,type,u,there,matching.size⟩

/-! ### The whole query -/

/-- The workers are given the records that the lookups read, in any order and any works. -/
def Delivers (works : List (List CallbackRecord)) (records : List IndexRecord) : Prop :=
  ∃ rs, works.flatten.Perm rs ∧ List.Forall₂ Carries rs records

theorem Delivers.blobs (delivers : Delivers works records) :
    (works.flatten.filterMap indexBlob).Perm (records.map recordBytes) := by
  obtain ⟨rs,perm,carried⟩ := delivers
  refine (perm.filterMap indexBlob).trans (List.Perm.of_eq ?_)
  clear perm
  induction carried with
  | nil => rfl
  | cons carries _ ih => rw [List.filterMap_cons,carries.blob,ih]; rfl

theorem Delivers.record (delivers : Delivers works records) (member : r ∈ works.flatten) :
    ∃ record ∈ records, Carries r record := by
  obtain ⟨rs,perm,carried⟩ := delivers
  have inside := perm.mem_iff.mp member
  clear perm member
  induction carried with
  | nil => cases inside
  | cons carries _ ih =>
    rcases List.mem_cons.mp inside with rfl | later
    · exact ⟨_,List.mem_cons_self,carries⟩
    · obtain ⟨record,there,carried⟩ := ih later
      exact ⟨record,List.mem_cons_of_mem _ there,carried⟩

theorem count_le_total {records : List IndexRecord} (sound : ∀ record ∈ records, Sound record) (member : record ∈ records) :
    record.count ≤ (records.flatMap (·.redirectId)).length := by
  rw [(sound record member).counted,List.flatMap_def]
  exact (List.sublist_flatten_of_mem (List.mem_map_of_mem member)).length_le

theorem total_blobs {records : List IndexRecord} (sound : ∀ record ∈ records, Sound record)
    (small : (records.flatMap (·.redirectId)).length < 2 ^ 31) :
    totalCount (records.map recordBytes) = (records.flatMap (·.redirectId)).length := by
  rw [totalCount,List.map_map,List.length_flatMap]
  refine congrArg List.sum (List.map_congr_left fun record member => ?_)
  rw [Function.comp_apply,recordBytes_count record (Nat.lt_of_le_of_lt (count_le_total sound member) small)]
  exact (sound record member).counted

/-- Once the lookups are through, `group_query` has an array of the digests of all the records that were read. -/
theorem gathered (delivers : Delivers works records) (sound : ∀ record ∈ records, Sound record)
    (small : (records.flatMap (·.redirectId)).length < 2 ^ 31) (hours threads : Nat) (enough : records.length ≤ hours)
    (events : List (Nat × Malloc)) (gives : ∀ event ∈ events, ∀ n, (event.2 n).isSome) (malloc : Malloc)
    (mallocs : ∀ n, (malloc n).isSome) (complete : (lookupRun works threads hours events).complete = works.length) :
    if records.flatMap (·.redirectId) = [] then groupQuery malloc (lookupRun works threads hours events).shared.irs = some none
    else ∃ array irs, groupQuery malloc (lookupRun works threads hours events).shared.irs =
        some (some ⟨(records.flatMap (·.redirectId)).length,array,irs⟩) ∧
      (cellsOf 20 array).Perm ((records.flatMap (·.redirectId)).map Vector.toList) := by
  have blobs := delivers.blobs
  have matching : ∀ record ∈ records, Matching (recordBytes record) := fun record member =>
    recordBytes_matching (sound record member) (Nat.lt_of_le_of_lt (count_le_total sound member) small)
  have good : ∀ r ∈ works.flatten, (IndexPlace.called r).Good := by
    intro r member
    obtain ⟨record,there,carries⟩ := delivers.record member
    refine ⟨carries.wellFormed (matching record there),fun other blob => ?_⟩
    obtain rfl := Option.some.inj (carries.blob.symm.trans blob)
    exact matching record there
  have room : works.flatten.length ≤ hours := by
    obtain ⟨rs,perm,carried⟩ := delivers
    rw [perm.length_eq,carried.length_eq]
    exact enough
  obtain ⟨gathers,counts⟩ := (gathers_keeps room).run threads (gathers_start works hours good) gives
  rw [← lookupRun] at gathers counts
  generalize lookupRun works threads hours events = s at gathers counts complete ⊢
  obtain ⟨places,rest⟩ := counts.through complete
  have kept := gathers.kept
  have tickets := gathers.tickets
  have inside := tickets.room
  rw [List.length_map,List.length_replicate] at inside
  rw [places,rest,List.filterMap_nil,List.filterMap_nil,List.append_nil,List.append_nil] at kept
  rw [places,List.filterMap_nil] at tickets
  have full := tickets.complete
  rw [List.length_map,List.drop_replicate] at full
  have named : works.flatten.filterMap nonemptyBlob =
      (works.flatten.filterMap indexBlob).filter fun record => countOf record ≠ 0 := by
    rw [List.filter_filterMap]
    rfl
  rw [named] at kept
  have taken : s.shared.taken.Perm ((records.map recordBytes).filter fun record => countOf record ≠ 0) :=
    kept.trans (blobs.filter _)
  have valid : ∀ record ∈ s.shared.taken, Matching record ∧ countOf record ≠ 0 := by
    intro bytes member
    obtain ⟨there,positive⟩ := List.mem_filter.mp (taken.mem_iff.mp member)
    obtain ⟨record,read,rfl⟩ := List.mem_map.mp there
    exact ⟨matching record read,by simpa using positive⟩
  have total : totalCount s.shared.taken = (records.flatMap (·.redirectId)).length := by
    rw [← total_blobs sound small,← nonempty_total (records.map recordBytes)]
    exact (taken.map countOf).sum_eq
  have whole : ∀ record ∈ records.map recordBytes, Matching record := by
    intro bytes member
    obtain ⟨record,read,rfl⟩ := List.mem_map.mp member
    exact matching record read
  rw [full]
  split
  · rename_i none
    have counted := countDigests_records (fun record member => (valid record member).1)
      (hours - s.shared.taken.length) (by omega : 0 + totalCount s.shared.taken < 2 ^ 64)
    rw [groupQuery,counted,total,none]
    rfl
  · rename_i some_
    have positive : totalCount s.shared.taken ≠ 0 := by
      rw [total]
      exact fun zero => some_ (List.length_eq_zero_iff.mp zero)
    have made := groupQuery_records mallocs valid (hours - s.shared.taken.length) (by omega) positive
    rw [total] at made
    refine ⟨_,_,made,?_⟩
    rw [cellsOf_flatten fun record member => (valid record member).1]
    refine (taken.flatMap_right digestsOf).trans (List.Perm.of_eq ?_)
    rw [nonempty_digests whole,List.flatMap_map,List.map_flatMap]
    exact congrArg (List.flatMap · records) (funext digestsOf_recordBytes)

/-- Whatever the order in which clicks are put, an index query that starts later and whose lookups all come through
has in its array the digests of clicks of its account and range only, of all of them whose `put_index` was through
before, and none twice if clicks of different hours have different digests. -/
theorem indexed_clicks_found (digest : CString → CfDigest) (click : Call → ClickTriple)
    (events : List (CString × IndexEvent)) (accountId beginDate endDate : CString) (keys : List CString)
    (range : doIndexqueryKeys accountId beginDate endDate = some (some keys))
    (later : CString → List (CString × IndexEvent)) (works : List (List CallbackRecord)) (threads : Nat)
    (delivers : Delivers works (recordsRead digest click events later keys))
    (small : (digestsRead digest click events later keys).length < 2 ^ 31) (moves : List (Nat × Malloc))
    (gives : ∀ move ∈ moves, ∀ n, (move.2 n).isSome) (malloc : Malloc) (mallocs : ∀ n, (malloc n).isSome)
    (complete : (lookupRun works threads keys.length moves).complete = works.length) :
    let found := digestsRead digest click events later keys
    (if found = [] then groupQuery malloc (lookupRun works threads keys.length moves).shared.irs = some none
      else ∃ array irs, groupQuery malloc (lookupRun works threads keys.length moves).shared.irs =
          some (some ⟨found.length,array,irs⟩) ∧
        (cellsOf 20 array).Perm (found.map Vector.toList)) ∧
    (∀ call ks, Store.Finished click (Store.run digest click events) call ks → (click call).accountId = accountId →
      HourInRange (click call).hour beginDate endDate → digest ks.rollupKey ∈ found) ∧
    (∀ d ∈ found, ∃ call ks, keysOf click call = some ks ∧ d = digest ks.rollupKey ∧
      (click call).accountId = accountId ∧ HourInRange (click call).hour beginDate endDate) ∧
    ((∀ call other ks ks', keysOf click call = some ks → keysOf click other = some ks' →
      digest ks.rollupKey = digest ks'.rollupKey → ks.indexKey = ks'.indexKey) → found.Nodup) := by
  obtain ⟨first,last,hours⟩ := query_hours range
  refine ⟨?_,digestsRead_exact hours events later⟩
  have read := digestsRead_eq digest click events later keys
  rw [← read] at small ⊢
  refine gathered delivers (fun record member => recordsRead_sound member) small keys.length threads ?_ moves gives malloc
    mallocs complete
  exact List.length_filterMap_le _ keys

/-! Two clicks of different hours, put at the same time and then found by a query of both hours, with
two threads by turns. -/

def twoClicks : Call → ClickTriple := fun call =>
  ⟨text "a",text (if call = 0 then "2012-01-01 05" else "2012-01-01 06"),text "1"⟩

/-- The digest of a key is made of the last digit of its hour. -/
def byHour : CString → CfDigest := fun key => Vector.replicate 20 (key.getD 7 0)

def twoPuts : List (CString × IndexEvent) :=
  [(text "a:368165",.read 0),(text "a:368166",.read 1),(text "a:368166",.send 1),(text "a:368165",.send 0),
    (text "a:368166",.arrive 0 1),(text "a:368165",.arrive 0 1),(text "a:368165",.respond 0),(text "a:368166",.respond 1)]

def hourAnswer (digit : UInt8) : CallbackRecord :=
  ⟨[],none,none,1,0,[⟨BinName.zero,⟨clBlob,28,.ptr 1 ([1,0,0,0,0,0,0,0] ++ List.replicate 20 digit)⟩⟩]⟩

def hourRecord (digit : UInt8) : IndexRecord := ⟨1,[Vector.replicate 20 digit]⟩

theorem hourAnswer_carries (digit : UInt8) : Carries (hourAnswer digit) (hourRecord digit) := by
  refine ⟨_,1,rfl,rfl,?_,by decide⟩
  have count : leBytes 8 1 = [1,0,0,0,0,0,0,0] := by decide
  rw [recordBytes,hourRecord,List.flatMap_singleton,Vector.toList_replicate,count]

theorem indexed_clicks_found_sample :
    ∃ array irs, groupQuery (fun _ => some fun _ => 0)
        (lookupRun [[hourAnswer 54],[hourAnswer 53]] 2 2 (byTurns 8)).shared.irs = some (some ⟨2,array,irs⟩) ∧
      (cellsOf 20 array).Perm [List.replicate 20 53,List.replicate 20 54] := by
  have range : doIndexqueryKeys (text "a") (text "2012010105") (text "2012010107") =
      some (some [text "a:368165",text "a:368166"]) := by decide +kernel
  have stored_ : (Store.run byHour twoClicks twoPuts (text "a:368165")).server = some (1,hourRecord 53) ∧
      (Store.run byHour twoClicks twoPuts (text "a:368166")).server = some (1,hourRecord 54) := by
    rw [Store.run,run_keyed,run_keyed]
    decide +kernel
  have read : recordsRead byHour twoClicks twoPuts (fun _ => []) [text "a:368165",text "a:368166"] =
      [hourRecord 53,hourRecord 54] := by
    rw [recordsRead,List.append_nil,List.filterMap_cons,List.filterMap_cons,stored_.1,stored_.2]
    rfl
  have found : digestsRead byHour twoClicks twoPuts (fun _ => []) [text "a:368165",text "a:368166"] =
      [Vector.replicate 20 53,Vector.replicate 20 54] := by
    rw [← digestsRead_eq,read]
    rfl
  have delivers : Delivers [[hourAnswer 54],[hourAnswer 53]]
      (recordsRead byHour twoClicks twoPuts (fun _ => []) [text "a:368165",text "a:368166"]) := by
    rw [read]
    exact ⟨[hourAnswer 53,hourAnswer 54],List.Perm.swap _ _ _,.cons (hourAnswer_carries 53) (.cons (hourAnswer_carries 54) .nil)⟩
  have whole := indexed_clicks_found byHour twoClicks twoPuts (text "a") (text "2012010105") (text "2012010107") _ range
    (fun _ => []) [[hourAnswer 54],[hourAnswer 53]] 2 delivers (by rw [found]; decide) (byTurns 8) (byTurns_gives 8)
    (fun _ => some fun _ => 0) (fun _ => rfl) (by decide +kernel)
  rw [found] at whole
  exact whole.1

end Citrusleaf.IndexedClicks
