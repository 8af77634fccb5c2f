import Citrusleaf.PhpPutGetRuns

/-! What is put is found: over the bytes of a response the record of the server comes back into an array. -/
namespace Citrusleaf.PhpClient
open Lib FullMonte

variable {ζ : Type} {request : Request}

/-! ### Responses -/

/-- Operations are read into a new array. -/
theorem parseOpsFresh_at (plenty : Plenty malloc) (before : List UInt8) (ops : List WireOp)
    (formed : ∀ op ∈ ops, op.WellFormed) (start : p = before.length)
    (room : first + 8 ≤ (before ++ ops.flatMap WireOp.wire).length ∨ ops = []) (values : List ClBin)
    (count : values.length = ops.length) :
    ∃ bins, parseOpsFresh malloc first values (before ++ ops.flatMap WireOp.wire) p = some (0,bins) ∧
      bins.map ClBin.view = ops.map WireOp.view := by
  induction ops generalizing before p values with
  | nil =>
    obtain rfl := List.length_eq_zero_iff.mp count
    exact ⟨[],rfl,rfl⟩
  | cons op ops ih =>
    cases values with
    | nil => cases count
    | cons value values =>
      have enough := room.resolve_right (List.cons_ne_nil op ops)
      have good := formed op List.mem_cons_self
      rw [List.flatMap_cons] at enough ⊢
      have swapped := swapWireOp_at before (ops.flatMap WireOp.wire) op start
      have host := hostWireOp_at before (ops.flatMap WireOp.wire) op good start
      obtain ⟨o,set,view⟩ := setObject_wire host good plenty value.object
      obtain ⟨name,named,stored⟩ := clSetValueParticular_stored host.nameSz host.named good.name set
      have next : p + 4 + op.opSz = (before ++ op.host).length := by
        rw [List.length_append,WireOp.host_length,start,Nat.add_assoc]
      have later : first + 8 ≤ (before ++ op.host ++ ops.flatMap WireOp.wire).length := by
        simp only [List.length_append,WireOp.host_length,WireOp.wire_length] at enough ⊢
        omega
      obtain ⟨bins,rest,views⟩ := ih (before ++ op.host) (fun op member => formed op (List.mem_cons_of_mem _ member)) next
        (.inl later) values (Nat.succ.inj count)
      refine ⟨⟨name,o⟩ :: bins,?_,?_⟩
      · rw [parseOpsFresh,if_neg (Nat.not_lt.mpr enough)]
        apply bind_given swapped
        apply bind_given stored
        apply bind_given host.next
        rw [← List.append_assoc]
        exact bind_given rest rfl
      · rw [List.map_cons,List.map_cons,views,view,ClBin.view,BinName.set_cString named good.name]

theorem clParse_getAll {heap : Heap} (plenty : Plenty heap.malloc) {msg : ClMsg} {fields : List (UInt8 × List UInt8)}
    {ops : List WireOp} (nFields : msg.nFields.toNat = fields.length) (nOps : msg.nOps.toNat = ops.length)
    (fieldsFormed : ∀ field ∈ fields, ResponseField field) (formed : ∀ op ∈ ops, op.WellFormed) :
    ∃ parsed bins, clParse heap msg (responseBytes fields ops) getAllCaller = some parsed ∧ parsed.rv = 0 ∧
      parsed.values = some ⟨false,bins⟩ ∧ bins.map ClBin.view = ops.map WireOp.view := by
  obtain ⟨s,mid,read,ended,left⟩ := parseFields_at (s := ⟨responseBytes fields ops,0,none,none⟩) getAllCaller []
    (ops.flatMap WireOp.wire) fields fieldsFormed rfl rfl
  rw [List.nil_append] at ended left
  have parsed (values : List ClBin) (done : parseOps heap msg.nOps.toNat ⟨false,[]⟩ s.buf s.mf = some (0,⟨false,values⟩)) :
      clParse heap msg (responseBytes fields ops) getAllCaller = some ⟨0,some ⟨false,values⟩,s.trid,s.setname⟩ := by
    rw [clParse,nFields]
    apply bind_given read
    dsimp only
    rw [if_neg (not_not.mpr rfl)]
    exact bind_given done rfl
  cases ops with
  | nil =>
    refine ⟨_,[],parsed [] ?_,rfl,rfl,rfl⟩
    rw [nOps]
    rfl
  | cons op ops =>
    have room : s.mf + 8 ≤ (mid ++ (op :: ops).flatMap WireOp.wire).length := by
      rw [ended,List.length_append,List.flatMap_cons,List.length_append,WireOp.wire_length,WireOp.opSz]
      omega
    obtain ⟨bins,fresh,views⟩ := parseOpsFresh_at plenty mid (op :: ops) formed ended (.inl room)
      ((List.range (op :: ops).length).map heap.garbage) (by rw [List.length_map,List.length_range])
    refine ⟨_,bins,parsed bins ?_,rfl,rfl,views⟩
    obtain ⟨address,given⟩ := plenty ((⟨false,[]⟩ : Values).itemSize * (op :: ops).length)
    have more : (op :: ops).length > (⟨false,[]⟩ : Values).bins.length := Nat.succ_pos _
    rw [parseOps,nOps,left,if_pos more,given]
    exact bind_given fresh rfl

/-! ### Arrays -/

theorem PhpArray.find_cons (entry : CString × PhpValue ζ) (array : PhpArray ζ) (name : CString) :
    PhpArray.find (entry :: array) name = if entry.1 = name then some entry.2 else array.find name := by
  by_cases same : entry.1 = name
  · rw [if_pos same,PhpArray.find,List.find?_cons_of_pos (by simpa using same),Option.map_some]
  · rw [if_neg same,PhpArray.find,List.find?_cons_of_neg (by simpa using same),PhpArray.find]

theorem addAssoc_find (array : PhpArray ζ) (name other : CString) (value : PhpValue ζ) :
    (addAssoc array name value).find other = if name = other then some value else array.find other := by
  induction array with
  | nil => rw [addAssoc,PhpArray.find_cons]
  | cons entry array ih =>
    rw [addAssoc]
    by_cases here : entry.1 = name
    · rw [if_pos here,PhpArray.find_cons,PhpArray.find_cons,here]
      by_cases same : name = other
      · rw [if_pos same,if_pos same]
      · rw [if_neg same,if_neg same,if_neg same]
    · rw [if_neg here,PhpArray.find_cons,ih,PhpArray.find_cons]
      by_cases same : name = other
      · rw [if_pos same,if_pos same,if_neg (same ▸ here)]
      · rw [if_neg same,if_neg same]

variable {unserialize : List UInt8 → Option ζ} {z : Zval} {bin : ClBin}

/-- A value that is stored is shown as it comes back, and a null not at all. -/
theorem getBins_stored (stored : z.stored = some (bin.object.type,value)) (held : bin.object.value = some value)
    (readable : ∀ address bytes, z = .serialized address bytes → (unserialize bytes).isSome) (bins : List ClBin)
    (array : PhpArray ζ) :
    getBins unserialize (bin :: bins) array =
      getBins unserialize bins ((z.back unserialize).elim array (addAssoc array bin.binName.str)) := by
  have copied (bytes : List UInt8) (notNull : bin.object.type ≠ clNull) (notInt : bin.object.type ≠ clInt)
      (same : value = .bytes bytes) : bin.object.u.copy bin.object.sz = some bytes := by
    rw [ClObject.value,if_neg notNull,if_neg notInt,same] at held
    obtain ⟨own,copy,inj⟩ := Option.map_eq_some_iff.mp held
    rw [copy,ObjectValue.bytes.inj inj]
  cases z with
  | other type => cases stored
  | null =>
    obtain ⟨type,_⟩ := Prod.mk.inj (Option.some.inj stored)
    rw [getBins,← type]
    rfl
  | bool flag =>
    obtain ⟨type,rfl⟩ := Prod.mk.inj (Option.some.inj stored)
    rw [ClObject.value,← type] at held
    rw [getBins,← type,ObjectValue.int.inj (Option.some.inj held)]
    rfl
  | long n =>
    obtain ⟨type,rfl⟩ := Prod.mk.inj (Option.some.inj stored)
    rw [ClObject.value,← type] at held
    rw [getBins,← type,ObjectValue.int.inj (Option.some.inj held)]
    rfl
  | string address chars =>
    obtain ⟨type,rfl⟩ := Prod.mk.inj (Option.some.inj stored)
    have copy := copied chars (by rw [← type]; decide) (by rw [← type]; decide) rfl
    rw [getBins,← type,copy]
    rfl
  | serialized address bytes =>
    obtain ⟨type,rfl⟩ := Prod.mk.inj (Option.some.inj stored)
    have copy := copied bytes (by rw [← type]; decide) (by rw [← type]; decide) rfl
    obtain ⟨shown,reads⟩ := Option.isSome_iff_exists.mp (readable address bytes rfl)
    rw [getBins,← type,copy,Zval.back,reads]
    simp only [Option.bind_eq_bind,Option.bind_some,reads]
    rfl

/-- Bins that hold what is stored for their names are shown in the array. -/
theorem getBins_finds (last : CString → Option Zval) (bins : List ClBin) (array : PhpArray ζ)
    (each : ∀ bin ∈ bins, ∃ z value, last bin.binName.str = some z ∧ z.stored = some (bin.object.type,value) ∧
      bin.object.value = some value ∧ ∀ address bytes, z = .serialized address bytes → (unserialize bytes).isSome) :
    ∃ after, getBins unserialize bins array = some (some after) ∧ ∀ name, after.find name =
      if ∃ bin ∈ bins, bin.binName.str = name then ((last name).bind (Zval.back unserialize)).or (array.find name)
      else array.find name := by
  induction bins generalizing array with
  | nil => exact ⟨array,rfl,fun name => by simp⟩
  | cons bin bins ih =>
    obtain ⟨z,value,known,stored,held,readable⟩ := each bin List.mem_cons_self
    obtain ⟨after,rest,found⟩ := ih ((z.back unserialize).elim array (addAssoc array bin.binName.str))
      fun bin member => each bin (List.mem_cons_of_mem _ member)
    refine ⟨after,(getBins_stored stored held readable bins array).trans rest,fun name => ?_⟩
    have added : ((z.back unserialize).elim array (addAssoc array bin.binName.str)).find name =
        if bin.binName.str = name then ((last name).bind (Zval.back unserialize)).or (array.find name) else array.find name := by
      by_cases here : bin.binName.str = name
      · rw [if_pos here,← here,known,Option.bind_some]
        cases z.back unserialize with
        | none => rfl
        | some shown => rw [Option.elim_some,addAssoc_find,if_pos rfl,Option.some_or]
      · rw [if_neg here]
        cases z.back unserialize with
        | none => rfl
        | some shown => rw [Option.elim_some,addAssoc_find,if_neg here]
    rw [found,added]
    by_cases here : bin.binName.str = name
    · have listed : ∃ other ∈ bin :: bins, other.binName.str = name := ⟨bin,List.mem_cons_self,here⟩
      rw [if_pos here,if_pos listed]
      cases (last name).bind (Zval.back unserialize) <;> simp
    · simp [here]

/-! ### What a get finds -/

theorem lastOf_append (first later : List (CString × Zval)) (name : CString) :
    lastOf (first ++ later) name = (lastOf later name).or (lastOf first name) := by
  have general (held : Option Zval) (values : List (CString × Zval)) :
      values.foldl (fun held value => if value.1 = name then some value.2 else held) held = (lastOf values name).or held := by
    induction values using List.reverseRecOn with
    | nil => rfl
    | append_singleton values value ih =>
      rw [lastOf,List.foldl_append,List.foldl_append,ih,← lastOf]
      by_cases same : value.1 = name
      · simp [same]
      · simp [same]
  rw [lastOf,List.foldl_append,general,← lastOf]

theorem stored_back (stored : z.stored = some (clNull,value)) : z.back unserialize = none := by
  cases z with
  | null => rfl
  | _ => simp [Zval.stored,clInt,clStr,clPhpBlob,clNull] at stored

/-- A response that lists the record shows the last value of each name. -/
theorem getBins_lists {values : List (CString × Zval)} {ops : List WireOp} {bins : List ClBin}
    (lists : Lists (fun name => (lastOf values name).bind Zval.stored) ops) (views : bins.map ClBin.view = ops.map WireOp.view)
    (readable : ∀ name address bytes, (name,Zval.serialized address bytes) ∈ values → (unserialize bytes).isSome) :
    ∃ array, getBins unserialize bins [] = some (some array) ∧
      ∀ name, array.find name = (lastOf values name).bind (Zval.back unserialize) := by
  have viewName (op : WireOp) : op.view.name = cString op.name := by
    unfold WireOp.view
    split
    · rfl
    · split <;> rfl
  have each : ∀ bin ∈ bins, ∃ z value, lastOf values bin.binName.str = some z ∧ z.stored = some (bin.object.type,value) ∧
      bin.object.value = some value ∧ ∀ address bytes, z = .serialized address bytes → (unserialize bytes).isSome := by
    intro bin member
    obtain ⟨op,listed,same⟩ := List.mem_map.mp (views ▸ List.mem_map_of_mem member)
    obtain ⟨value,own,record⟩ := lists.held op listed
    rw [← viewName,same] at record
    rw [same] at own
    obtain ⟨z,last,stored⟩ := Option.bind_eq_some_iff.mp record
    exact ⟨z,value,last,stored,own,fun address bytes serialized => readable _ address bytes (serialized ▸ lastOf_mem last)⟩
  obtain ⟨array,shown,found⟩ := getBins_finds (lastOf values) bins [] each
  refine ⟨array,shown,fun name => ?_⟩
  rw [found]
  split
  · exact Option.or_none
  · rename_i absent
    cases last : lastOf values name with
    | none => rfl
    | some z =>
      rw [Option.bind_some]
      by_contra seen
      cases stored : z.stored with
      | none =>
        cases z with
        | other type => exact seen rfl
        | _ => cases stored
      | some held =>
        obtain ⟨type,value⟩ := held
        have typed : type ≠ clNull := fun null => seen (stored_back (null ▸ stored)).symm
        obtain ⟨op,listed,same⟩ := lists.all name type value (by rw [last,Option.bind_some,stored]) typed
        obtain ⟨bin,member,view⟩ := List.mem_map.mp (views ▸ List.mem_map_of_mem listed : op.view ∈ bins.map ClBin.view)
        exact absent ⟨bin,member,by rw [← same,← viewName,← view]; rfl⟩

variable {clo : CitrusleafObject} {key : Zval}

theorem clientGet_ok {initialized : Bool} (asked : clientGet initialized clo o clWP key = .ok request) :
    ∃ oKey, zvalToCitrusleafObject key o = some oKey ∧ oKey.type ≠ clNull ∧ request.Names clo oKey ∧
      request.args.values.ops = [] := by
  unfold clientGet at asked
  cases converted : zvalToCitrusleafObject key o with
  | none =>
    rw [converted] at asked
    cases asked
  | some oKey =>
    rw [converted] at asked
    dsimp only at asked
    split at asked
    · cases asked
    · rename_i notNull
      cases initialized with
      | false => cases asked
      | true =>
        obtain rfl := Except.ok.inj asked
        exact ⟨oKey,rfl,notNull,⟨rfl,rfl,rfl,rfl,rfl,rfl⟩,rfl⟩

/-- Lengths of the request of a get for the wire. -/
structure GetFits (request : Request) : Prop where
  keySz : ∀ oKey, request.args.key = some oKey → oKey.sz + 2 < 2 ^ 32
  total : ∀ msgSz, request.args.msgSz = some msgSz → msgSz - 8 < 2 ^ 48

theorem clientGet_sendable {initialized : Bool} (asked : clientGet initialized clo o clWP key = .ok request)
    (fits : GetFits request) : request.args.Sendable := by
  obtain ⟨oKey,converted,notNull,names,ops⟩ := clientGet_ok asked
  obtain ⟨made,own,type⟩ := zval_initialised converted
  have nsShort := clo.ns.short
  have setShort := clo.set.short
  refine CompileArgs.Accepted.sendable ⟨?_,?_,?_,?_,?_,fits.total⟩ ⟨?_,?_⟩
  · intro given same
    rw [names.ns] at same
    obtain rfl := Option.some.inj same
    omega
  · intro given same
    rw [names.set] at same
    obtain rfl := Option.some.inj same
    omega
  · intro given same
    have size := fits.keySz given same
    rw [names.key] at same
    obtain rfl := Option.some.inj same
    exact ⟨made,type.resolve_left notNull,size⟩
  · intro operation member
    rw [ops] at member
    exact absurd member List.not_mem_nil
  · rw [ops]
    exact Nat.zero_le _
  · intro given same
    rw [names.key] at same
    obtain rfl := Option.some.inj same
    exact own
  · intro operation member
    rw [ops] at member
    exact absurd member List.not_mem_nil

/-- What a call brings to the record of a get: nothing, where it names another one. -/
theorem landed_cases {initialized : Bool} (asked : clientGet initialized clo o clWP key = .ok request) (call : PutCall) :
    (call.landed request.args.fields = [] ∨ call.Names clo key ∧ call.landed request.args.fields = call.values) ∧
    (call.ReturnsOk → 0 < call.received → call.Names clo key → call.landed request.args.fields = call.values) := by
  obtain ⟨oKey,converted,notNull,names,_⟩ := clientGet_ok asked
  unfold PutCall.landed
  cases sent : call.php with
  | none => exact ⟨.inl rfl,fun ok => by obtain ⟨_,sends⟩ := ok.sends; cases sent.symm.trans sends⟩
  | some outcome =>
    cases outcome with
    | returned value => exact ⟨.inl rfl,fun ok => by obtain ⟨_,sends⟩ := ok.sends; cases sent.symm.trans sends⟩
    | sends own =>
      obtain ⟨putKey,bins,puts⟩ := PutCall.puts sent
      have same := recordFields_iff call.clo clo puts.converted puts.notNull converted notNull
      rw [← puts.names.fields,← names.fields] at same
      dsimp only
      constructor
      · split
        · rename_i both
          obtain ⟨ns,set,key⟩ := same.mp both.2
          exact .inr ⟨⟨ns,set,key⟩,rfl⟩
        · exact .inl rfl
      · intro _ received named
        rw [if_pos ⟨Nat.ne_of_gt received,same.mpr ⟨named.ns,named.set,named.key⟩⟩]

/-- A response of the server with a record, at the label `Ok`. -/
structure Responds (record : TypedRecord) (s : MonteState) (msg : List UInt8) (fields : List (UInt8 × List UInt8))
    (ops : List WireOp) : Prop where
  buffer : s.rdBuf ≠ .null
  header : ∃ proto m, swapAsMsg msg = some (proto,m) ∧ m.resultCode = 0 ∧ m.nFields.toNat = fields.length ∧
    m.nOps.toNat = ops.length
  fields : ∀ field ∈ fields, ResponseField field
  lists : Lists record ops

/-- A get shows the bins that the response has. -/
theorem monteOk_shows {heap : Heap} (plenty : Plenty heap.malloc) {call : MonteCall} (caller : call.caller = getAllCaller)
    {fields : List (UInt8 × List UInt8)} {ops : List WireOp} (responds : Responds record s msg fields ops) :
    ∃ result, monteOk call heap s msg (responseBytes fields ops) = some result ∧
      (clientGetResponse result).responseCode = .ok ∧
      (clientGetResponse result).binVals.map ClBin.view = ops.map WireOp.view := by
  obtain ⟨proto,m,decodes,code,nFields,nOps⟩ := responds.header
  obtain ⟨parsed,bins,read,rv,values,views⟩ := clParse_getAll plenty nFields nOps responds.fields responds.lists.formed
  have found : (0 : UInt8) ≠ clResultNotfound := by decide
  refine ⟨⟨0,some ⟨false,bins⟩,parsed.trid,parsed.setname,s.clGen⟩,?_,rfl,views⟩
  rw [monteOk,if_neg responds.buffer,decodes,caller]
  simp only [Option.bind_eq_bind,Option.bind_some,read,Option.pure_def,rv,values,ne_eq,not_true_eq_false,if_false,
    code,found,false_and,and_false]
  rfl

/-- The client and the server are a store: whatever clients put, and however often their requests are sent, a get
shows for each name the value of the last call that put one into the record and returned OK. -/
theorem get_finds_put {server heap : Heap} (plentyThere : Plenty server.malloc) (plenty : Plenty heap.malloc)
    {calls : List PutCall} (fits : ∀ put ∈ calls, put.Fits)
    (answered : ∀ put ∈ calls, put.ReturnsOk → 0 < put.received)
    (readable : ∀ put ∈ calls, ∀ name address bytes, (name,Zval.serialized address bytes) ∈ put.values →
      (unserialize bytes).isSome)
    {initialized : Bool} (asked : clientGet initialized clo o clWP key = .ok request) (getFits : GetFits request) :
    ∃ buf decoded, clCompile request.args = some (0,buf) ∧ decodeRequest server buf = some decoded ∧
      decoded.fields = request.args.fields ∧ ∀ (call : MonteCall) (s : MonteState) (msg : List UInt8) (fields : List (UInt8 × List UInt8)) (ops : List WireOp),
        call.caller = getAllCaller →
        Responds (run (putStep server) (fun _ _ => none) calls decoded.fields) s msg fields ops →
        ∃ result array, monteOk call heap s msg (responseBytes fields ops) = some result ∧
          (clientGetResponse result).responseCode = .ok ∧
          getBins unserialize (clientGetResponse result).binVals [] = some (some array) ∧
          ∀ name,
            (∀ before put after z, calls = before ++ put :: after → put.ReturnsOk → put.Names clo key →
              lastOf put.values name = some z → (∀ later ∈ after, later.Names clo key → lastOf later.values name = none) →
              array.find name = z.back unserialize) ∧
            ((∀ put ∈ calls, put.Names clo key → lastOf put.values name = none) → array.find name = none) := by
  obtain ⟨buf,decoded,compiled,read,_,_,_,sameFields,_⟩ := roundTrips_of_sendable plentyThere (clientGet_sendable asked getFits)
  refine ⟨buf,decoded,compiled,read,sameFields,fun call s msg fields ops caller responds => ?_⟩
  rw [sameFields] at responds
  obtain ⟨result,given,code,views⟩ := monteOk_shows plenty caller responds
  have record : run (putStep server) (fun _ _ => none) calls request.args.fields =
      fun name => (lastOf (calls.flatMap (PutCall.landed · request.args.fields)) name).bind Zval.stored := by
    funext name
    rw [putRun_held plentyThere fits,heldAfter_last]
  have readAll : ∀ name address bytes, (name,Zval.serialized address bytes) ∈
      calls.flatMap (PutCall.landed · request.args.fields) → (unserialize bytes).isSome := by
    intro name address bytes member
    obtain ⟨put,present,landed⟩ := List.mem_flatMap.mp member
    rcases (landed_cases asked put).1 with none | ⟨_,all⟩
    · rw [none] at landed
      exact absurd landed List.not_mem_nil
    · exact readable put present name address bytes (all ▸ landed)
  obtain ⟨array,shown,found⟩ := getBins_lists (record ▸ responds.lists) views readAll
  have untouched (puts : List PutCall) (name : CString)
      (none : ∀ put ∈ puts, put.Names clo key → lastOf put.values name = Option.none) :
      lastOf (puts.flatMap (PutCall.landed · request.args.fields)) name = Option.none := by
    induction puts with
    | nil => rfl
    | cons put puts ih =>
      rw [List.flatMap_cons,lastOf_append,ih fun put member => none put (List.mem_cons_of_mem _ member),Option.none_or]
      rcases (landed_cases asked put).1 with nothing | ⟨named,all⟩
      · rw [nothing]
        rfl
      · rw [all]
        exact none put List.mem_cons_self named
  refine ⟨result,array,given,code,shown,fun name => ⟨?_,fun none => ?_⟩⟩
  · rintro before put after z rfl ok named last quiet
    have received := answered put (List.mem_append_right _ List.mem_cons_self) ok
    have landed := (landed_cases asked put).2 ok received named
    rw [found,List.flatMap_append,List.flatMap_cons,lastOf_append,lastOf_append,untouched after name quiet,Option.none_or,
      landed,last,Option.some_or,Option.bind_some]
  · rw [found,untouched calls name none,Option.bind_none]

def samplePutFrame : PutFrame := ⟨unsetObject,fun _ => sampleBin unsetObject,⟨⟨false,false,false,false,false,0,0,0⟩,clWriteRetry⟩⟩

/-- The server receives it twice. -/
def samplePut : PutCall := ⟨sampleClient,.bool true,.put (.long 5),{},true,samplePutFrame,citrusleafOk,2⟩

def samplePutmany : PutCall :=
  ⟨sampleClient,.long 1,.putmany [(.string (text "d"),.string 8 (text "x")),(.long 7,.null)],{},true,samplePutFrame,
    citrusleafOk,1⟩

def sampleGet : MonteCall := ⟨0,none,getAllCaller,true,0⟩

def sampleListing : List WireOp := [⟨1,1,0,text "binname",[5]⟩,⟨1,3,0,text "d",text "x"⟩]

def sampleHeader : List UInt8 := [2,3,0,0,0,0,0,54,22,0,0,0,0,0,0,0,0,3,0,0,0,0,0,0,0,0,0,0,0,2]

def samplePutHeap : Heap := ⟨fun _ => some 1,fun _ => sampleBin unsetObject⟩

theorem get_finds_put_sample : ∃ (result : MonteResult) (array : PhpArray Unit),
    monteOk sampleGet samplePutHeap ⟨1,0,.stack,none⟩ sampleHeader (responseBytes [] sampleListing) = some result ∧
      getBins (fun _ => none) (clientGetResponse result).binVals [] = some (some array) ∧
      array.find (text "binname") = some (.long 5) ∧ array.find (text "d") = some (.string (text "x")) ∧
      array.find (text "7") = none := by
  obtain ⟨request,asked⟩ : ∃ request, clientGet true sampleClient unsetObject samplePutFrame.clWP (.long 1) = .ok request := ⟨_,rfl⟩
  have plenty : Plenty samplePutHeap.malloc := fun _ => ⟨1,rfl⟩
  have same := Except.ok.inj asked
  have fits : ∀ put ∈ [samplePut,samplePutmany], put.Fits := by
    intro put member
    rcases List.mem_pair.mp member with rfl | rfl
    · refine ⟨?_,?_,by decide,?_⟩
      · intro oKey converted
        obtain rfl := Option.some.inj converted
        decide
      · intro value given o object converted
        obtain rfl := List.mem_singleton.mp given
        obtain rfl := Option.some.inj converted
        change 4 + 7 + 8 < 2 ^ 32
        decide
      · intro request sent msgSz size
        obtain rfl := PhpCall.sends.inj (Option.some.inj sent)
        obtain rfl := Option.some.inj size
        decide
    · refine ⟨?_,?_,by decide,?_⟩
      · intro oKey converted
        obtain rfl := Option.some.inj converted
        decide
      · intro value given o object converted
        rcases List.mem_pair.mp given with rfl | rfl
        · obtain rfl := Option.some.inj converted
          change 4 + 1 + 1 < 2 ^ 32
          decide
        · obtain rfl := Option.some.inj converted
          change 4 + 1 + 0 < 2 ^ 32
          decide
      · intro request sent msgSz size
        obtain rfl := PhpCall.sends.inj (Option.some.inj sent)
        obtain rfl := Option.some.inj size
        decide
  have answered : ∀ put ∈ [samplePut,samplePutmany], put.ReturnsOk → 0 < put.received := by
    intro put member _
    rcases List.mem_pair.mp member with rfl | rfl
    · decide
    · decide
  have readable : ∀ put ∈ [samplePut,samplePutmany], ∀ name address bytes, (name,Zval.serialized address bytes) ∈ put.values →
      ((fun _ => none : List UInt8 → Option Unit) bytes).isSome := by
    intro put member name address bytes given
    rcases List.mem_pair.mp member with rfl | rfl
    · cases List.mem_singleton.mp given
    · rcases List.mem_pair.mp given with same | same <;> cases same
  have getFits : GetFits request := by
    refine ⟨fun oKey key => ?_,fun msgSz size => ?_⟩
    · rw [← same] at key
      obtain rfl := Option.some.inj key
      decide
    · rw [← same] at size
      obtain rfl := Option.some.inj size
      decide
  obtain ⟨_,decoded,_,_,named,shows⟩ := get_finds_put plenty plenty fits answered readable asked getFits
  have landed : [samplePut,samplePutmany].flatMap (PutCall.landed · request.args.fields) =
      [(text "binname",.long 5),(text "d",.string 8 (text "x")),(text "7",.null)] := by
    rw [← same]
    rfl
  have record : run (putStep samplePutHeap) (fun _ _ => none) [samplePut,samplePutmany] decoded.fields =
      fun name => (lastOf [(text "binname",.long 5),(text "d",.string 8 (text "x")),(text "7",.null)] name).bind Zval.stored := by
    funext name
    rw [named,putRun_held plenty fits,landed,heldAfter_last]
  have lists : Lists (run (putStep samplePutHeap) (fun _ _ => none) [samplePut,samplePutmany] decoded.fields) sampleListing := by
    rw [record]
    refine ⟨fun op member => ?_,fun op member => ?_,fun name type value held typed => ?_⟩
    · rcases List.mem_pair.mp member with rfl | rfl
      · exact ⟨by decide,.inr (.inl rfl),fun _ => by decide,by decide⟩
      · exact ⟨by decide,.inr (.inr (.inl rfl)),nofun,by decide⟩
    · rcases List.mem_pair.mp member with rfl | rfl
      · exact ⟨.int 5,by decide,by decide⟩
      · exact ⟨.bytes (text "x"),by decide,by decide⟩
    · obtain ⟨z,last,stored⟩ := Option.bind_eq_some_iff.mp held
      have given := lastOf_mem last
      simp only [List.mem_cons,Prod.mk.injEq,List.not_mem_nil,or_false] at given
      rcases given with ⟨rfl,rfl⟩ | ⟨rfl,rfl⟩ | ⟨rfl,rfl⟩
      · exact ⟨_,List.mem_cons_self,by decide⟩
      · exact ⟨_,List.mem_cons_of_mem _ List.mem_cons_self,by decide⟩
      · exact absurd (congrArg Prod.fst (Option.some.inj stored)).symm typed
  obtain ⟨result,array,given,_,shown,found⟩ := shows sampleGet ⟨1,0,.stack,none⟩ sampleHeader [] sampleListing rfl
    ⟨nofun,⟨_,_,rfl,rfl,rfl,rfl⟩,nofun,lists⟩
  have named : ∀ put ∈ [samplePut,samplePutmany], put.Names sampleClient (.long 1) := by
    intro put member
    rcases List.mem_pair.mp member with rfl | rfl
    · exact ⟨rfl,rfl,rfl⟩
    · exact ⟨rfl,rfl,rfl⟩
  have values : samplePutmany.values = [(text "d",.string 8 (text "x")),(text "7",.null)] := rfl
  refine ⟨result,array,given,shown,?_,?_,?_⟩
  · refine (found _).1 [] samplePut [samplePutmany] (.long 5) rfl (by decide) (named _ List.mem_cons_self) rfl
      fun later member _ => ?_
    rw [List.mem_singleton.mp member,values]
    rfl
  · exact (found _).1 [samplePut] samplePutmany [] (.string 8 (text "x")) rfl (by decide)
      (named _ (List.mem_cons_of_mem _ List.mem_cons_self)) (by rw [values]; rfl) fun _ member => absurd member List.not_mem_nil
  · exact (found _).1 [samplePut] samplePutmany [] .null rfl (by decide)
      (named _ (List.mem_cons_of_mem _ List.mem_cons_self)) (by rw [values]; rfl) fun _ member => absurd member List.not_mem_nil

end Citrusleaf.PhpClient
