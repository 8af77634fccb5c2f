import Citrusleaf.Cluster
import Citrusleaf.Lib.CStrings

/-! The url as `citrusleaf_cluster_get` takes it apart, in the copy that `strdup` made of it. A pointer into the
copy is an offset, and `none` stands for a read outside it. -/
namespace Citrusleaf.Cluster
open Lib

/-- `strchr` -/
def strchr (mem : List UInt8) (p : Nat) (c : UInt8) : Option (Option Nat) := do
  let q := p + ((mem.drop p).takeWhile fun b => b ≠ c ∧ b ≠ 0).length
  return if (← readByte mem q) = c then some q else none

/-- The host, and the port as far as the url gives one. -/
def parseHost (urlx : List UInt8) (host : Nat) : Option (CString × Int) := do
  match ← strchr urlx host 58 with
  | some port =>
    let urlx ← writeBytes urlx port [0]
    let portI := atoi (← textAt urlx (port + 1))
    return (← textAt urlx host,portI)
  | none =>
    match ← strchr urlx host 47 with
    | some port =>
      let urlx ← writeBytes urlx port [0]
      return (← textAt urlx host,0)
    | none => return (← textAt urlx host,0)

/-- The host and port to look for, unless the url is refused. -/
def parseUrl (url : CString) : Option (Option (CString × Int)) := do
  let urlx := url ++ [0]
  match ← strchr urlx 0 58 with
  | none => return none
  | some proto =>
    let urlx ← writeBytes urlx proto [0]
    if (← textAt urlx proto) = text "citrusleaf" then return none
    let (host,portI) ← parseHost urlx (proto + 3)
    return some (host,if portI = 0 then 3000 else portI)

/-! ### The grammar -/

/-- The number that decimal digits are. -/
def digitsValue (digits : CString) : Nat := digits.foldl (fun n c => n * 10 + (c.toNat - 48)) 0

/-- What a url consists of. -/
structure UrlForm where
  host : CString
  port : Option CString
  path : CString
  named : host ≠ []
  plain : 58 ∉ host ∧ 47 ∉ host
  digits : ∀ d, port = some d → d ≠ [] ∧ ∀ c ∈ d, 48 ≤ c ∧ c ≤ 57
  rooted : path = [] ∨ ∃ p, path = 47 :: p

def UrlForm.url (form : UrlForm) : CString :=
  text "citrusleaf://" ++ (form.host ++ (form.port.elim [] (58 :: ·) ++ form.path))

def UrlForm.portNumber (form : UrlForm) : Int := form.port.elim 3000 fun d => digitsValue d

/-- The url is taken as the grammar says, or refused where it has no such form; nothing outside it is read. -/
def ParsedAsGrammar (url : CString) : Prop :=
  (∃ form : UrlForm, form.url = url ∧ parseUrl url = some (some (form.host,form.portNumber))) ∨
    (¬∃ form : UrlForm, form.url = url) ∧ parseUrl url = some none

/-! ### The parser on a text -/

variable {mem before after s url scheme rest d : List UInt8} {p : Nat} {c : UInt8}

/-- The search ends at the character or at the zero. -/
theorem strchr_at (before : List UInt8) (plain : 0 ∉ s) (absent : c ∉ s) (after : List UInt8) (start : p = before.length)
    (ends : b = c ∨ b = 0) :
    strchr (before ++ (s ++ b :: after)) p c = some (if b = c then some (p + s.length) else none) := by
  subst start
  have scanned : (s ++ b :: after).takeWhile (fun b => b ≠ c ∧ b ≠ 0) = s := by
    rw [List.takeWhile_append_of_pos]
    · rcases ends with rfl | rfl <;> simp
    · intro other member
      simpa using ⟨fun same => absent (same ▸ member),fun zero => plain (zero ▸ member)⟩
  have read := readByte_at (before ++ s) b after (p := before.length + s.length) (by simp)
  rw [List.append_assoc,List.singleton_append] at read
  rw [strchr,List.drop_left,scanned,read]
  rfl

theorem writeZero (before : List UInt8) (b : UInt8) (after : List UInt8) (start : p = before.length) :
    writeBytes (before ++ b :: after) p [0] = some (before ++ 0 :: after) :=
  writeBytes_at before [b] after [0] start rfl

/-- The host and port of what follows the two characters behind the first colon. -/
def hostPort (rest : CString) : CString × Int :=
  if 58 ∈ rest then (rest.takeWhile (· ≠ 58),atoi ((rest.dropWhile (· ≠ 58)).drop 1)) else (rest.takeWhile (· ≠ 47),0)

theorem parseHost_at (before : List UInt8) (plain : 0 ∉ rest) (start : p = before.length) :
    parseHost (before ++ (rest ++ [0])) p = some (hostPort rest) := by
  by_cases colon : 58 ∈ rest
  · obtain ⟨host,port,rfl,absent⟩ := List.eq_append_cons_of_mem colon
    simp only [List.mem_append,List.mem_cons,not_or] at plain
    have found := strchr_at before plain.1 absent (port ++ [0]) start (.inl rfl)
    have wrote := writeZero (before ++ host) 58 (port ++ [0]) (p := p + host.length) (by simp [start])
    have number := textAt_append (before ++ host ++ [0]) plain.2.2 [] (p := p + host.length + 1)
      (by simp [start,Nat.add_assoc])
    have name := textAt_append before plain.1 (port ++ [0]) start
    simp only [List.append_assoc,List.cons_append,List.nil_append] at found wrote number name ⊢
    rw [parseHost,hostPort,if_pos colon,takeWhile_stop absent,dropWhile_stop absent]
    simp [found,wrote,number,name]
  · have missing := strchr_at before plain colon [] start (.inr rfl)
    rw [hostPort,if_neg colon]
    by_cases slash : 47 ∈ rest
    · obtain ⟨host,path,rfl,absent⟩ := List.eq_append_cons_of_mem slash
      simp only [List.mem_append,List.mem_cons,not_or] at plain
      have found := strchr_at before plain.1 absent (path ++ [0]) start (.inl rfl)
      have wrote := writeZero (before ++ host) 47 (path ++ [0]) (p := p + host.length) (by simp [start])
      have name := textAt_append before plain.1 (path ++ [0]) start
      simp only [List.append_assoc,List.cons_append] at missing found wrote name ⊢
      rw [parseHost,takeWhile_stop absent]
      simp [missing,found,wrote,name]
    · have none := strchr_at before plain slash [] start (.inr rfl)
      have name := textAt_append before plain [] start
      rw [parseHost,takeWhile_all slash]
      simp [missing,none,name]

theorem urlHost_eq (clean : 58 ∉ scheme) (rest : CString) :
    urlHost (scheme ++ 58 :: rest) = some ((hostPort (rest.drop 2)).1,
      if (hostPort (rest.drop 2)).2 = 0 then 3000 else (hostPort (rest.drop 2)).2) := by
  rw [urlHost,dropWhile_stop clean]
  unfold hostPort
  simp only [List.drop_succ_cons]

/-- The comparison with "citrusleaf" is made where the zero was just written. -/
theorem parseUrl_behind (plain : 0 ∉ scheme) (clean : 58 ∉ scheme) (rest : CString) :
    parseUrl (scheme ++ 58 :: rest) = (parseHost (scheme ++ 0 :: (rest ++ [0])) (scheme.length + 3)).map
      fun listed => some (listed.1,if listed.2 = 0 then 3000 else listed.2) := by
  have found : strchr (scheme ++ 58 :: (rest ++ [0])) 0 58 = some (some scheme.length) := by
    simpa using strchr_at [] plain clean (rest ++ [0]) rfl (.inl rfl)
  have wrote := writeZero scheme 58 (rest ++ [0]) rfl
  have empty : textAt (scheme ++ 0 :: (rest ++ [0])) scheme.length = some [] :=
    textAt_append scheme List.not_mem_nil (rest ++ [0]) rfl
  have refused : ([] : CString) ≠ text "citrusleaf" := by decide
  rw [parseUrl,List.append_assoc,List.cons_append]
  simp only [found,wrote,empty,refused,Option.bind_eq_bind,Option.bind_some,if_false]
  cases parseHost (scheme ++ 0 :: (rest ++ [0])) (scheme.length + 3) <;> rfl

theorem parseHost_outside (short : mem.length ≤ p) : parseHost mem p = none := by
  simp [parseHost,strchr,readByte,List.drop_eq_nil_of_le short,List.getElem?_eq_none short]

/-- On a text the parser is `urlHost`, but it reads past a url that ends right behind its first colon. -/
theorem parseUrl_eq (plain : 0 ∉ url) :
    parseUrl url = if 58 ∈ url ∧ (url.dropWhile (· ≠ 58)).length < 3 then none else some (urlHost url) := by
  by_cases colon : 58 ∈ url
  · obtain ⟨scheme,rest,rfl,clean⟩ := List.eq_append_cons_of_mem colon
    simp only [List.mem_append,List.mem_cons,not_or] at plain
    rw [dropWhile_stop clean,urlHost_eq clean,parseUrl_behind plain.1 clean]
    by_cases short : (58 :: rest).length < 3
    · rw [if_pos ⟨colon,short⟩,parseHost_outside]
      · rfl
      · simp at short ⊢
        omega
    · rcases rest with _ | ⟨a,_ | ⟨b,more⟩⟩
      · simp at short
      · simp at short
      · simp only [List.mem_cons,not_or] at plain
        have inside := parseHost_at (scheme ++ [0,a,b]) (p := scheme.length + 3) plain.2.2.2.2 (by simp)
        simp only [List.append_assoc,List.cons_append,List.nil_append] at inside ⊢
        rw [if_neg (fun both => short both.2),inside]
        rfl
  · have missing : strchr (url ++ [0]) 0 58 = some none := strchr_at [] plain colon [] rfl (.inr rfl)
    rw [if_neg (fun both => colon both.1),parseUrl,urlHost,dropWhile_all colon]
    simp [missing]

/-! ### Urls of the form -/

theorem digit_plain (digit : 48 ≤ c ∧ c ≤ 57) : isspace c = false ∧ c ≠ 45 ∧ c ≠ 43 := by
  have low : 48 ≤ c.toNat := UInt8.le_iff_toNat_le.mp digit.1
  have high : c.toNat ≤ 57 := UInt8.le_iff_toNat_le.mp digit.2
  simp [isspace,UInt8.le_iff_toNat_le,← UInt8.toNat_inj]
  omega

theorem leadingDigits_digits (digits : ∀ c ∈ d, 48 ≤ c ∧ c ≤ 57) (stop : ∀ c ∈ rest.head?, ¬(48 ≤ c ∧ c ≤ 57)) (value : Nat) :
    leadingDigits value (d ++ rest) = d.foldl (fun n c => n * 10 + (c.toNat - 48)) value := by
  induction d generalizing value with
  | nil =>
    cases rest with
    | nil => rfl
    | cons c rest =>
      rw [List.nil_append,leadingDigits,if_neg (stop c rfl)]
      rfl
  | cons c d ih =>
    rw [List.cons_append,leadingDigits,if_pos (digits c List.mem_cons_self)]
    exact ih (fun other member => digits other (List.mem_cons_of_mem _ member)) _

theorem strtol_digits (some : d ≠ []) (digits : ∀ c ∈ d, 48 ≤ c ∧ c ≤ 57) (stop : ∀ c ∈ rest.head?, ¬(48 ≤ c ∧ c ≤ 57)) :
    strtol (d ++ rest) = min (digitsValue d : Int) (2 ^ 63 - 1) := by
  have value := leadingDigits_digits digits stop 0
  obtain ⟨c,d,rfl⟩ := List.exists_cons_of_ne_nil some
  obtain ⟨space,minus,plus⟩ := digit_plain (digits c List.mem_cons_self)
  have start : (c :: d ++ rest).dropWhile isspace = c :: d ++ rest := by simp [space]
  unfold strtol
  rw [start]
  split
  · rename_i signed
    exact absurd (List.cons.inj signed).1 minus
  · rename_i signed
    exact absurd (List.cons.inj signed).1 plus
  · rw [value,digitsValue]

theorem atoi_digits (some : d ≠ []) (digits : ∀ c ∈ d, 48 ≤ c ∧ c ≤ 57) (stop : ∀ c ∈ rest.head?, ¬(48 ≤ c ∧ c ≤ 57)) :
    atoi (d ++ rest) = digitsValue d ↔ digitsValue d < 2 ^ 31 := by
  have bound := BitVec.two_mul_toInt_lt (x := BitVec.ofInt 32 (strtol (d ++ rest)))
  rw [atoi]
  constructor
  · intro same
    omega
  · intro small
    rw [strtol_digits some digits stop,Int.min_eq_left (by omega),BitVec.toInt_ofInt]
    exact Int.bmod_eq_of_le (by omega) (by omega)

namespace UrlForm

variable (form : UrlForm)

/-- What stands behind the host. -/
def tail : CString := form.port.elim [] (58 :: ·) ++ form.path

theorem url_eq : form.url = text "citrusleaf" ++ 58 :: 47 :: 47 :: (form.host ++ form.tail) := by
  rw [url,tail,show text "citrusleaf://" = text "citrusleaf" ++ [58,47,47] by decide,List.append_assoc]
  rfl

theorem path_head : ∀ c ∈ form.path.head?, c = 47 := by
  intro c first
  rcases form.rooted with none | ⟨p,slash⟩
  · simp [none] at first
  · simpa [slash,eq_comm] using first

theorem parseUrl_url (plain : 0 ∉ form.url) :
    parseUrl form.url = some (some ((hostPort (form.host ++ form.tail)).1,
      if (hostPort (form.host ++ form.tail)).2 = 0 then 3000 else (hostPort (form.host ++ form.tail)).2)) := by
  have clean : 58 ∉ text "citrusleaf" := by decide
  rw [parseUrl_eq plain,url_eq,dropWhile_stop clean,urlHost_eq clean,if_neg]
  · rfl
  · simp

theorem hostPort_port {d : CString} (given : form.port = some d) :
    hostPort (form.host ++ form.tail) = (form.host,atoi (d ++ form.path)) := by
  rw [tail,given,Option.elim_some,List.cons_append,hostPort,if_pos (by simp),takeWhile_stop form.plain.1,
    dropWhile_stop form.plain.1]
  rfl

theorem hostPort_none (absent : form.port = none) (clean : 58 ∉ form.path) :
    hostPort (form.host ++ form.tail) = (form.host,0) := by
  rw [tail,absent,Option.elim_none,List.nil_append,hostPort,if_neg (by simp [form.plain.1,clean])]
  rcases form.rooted with none | ⟨p,slash⟩
  · rw [none,List.append_nil,takeWhile_all form.plain.2]
  · rw [slash,takeWhile_stop form.plain.2]

/-- A colon in the path of a url without a port is taken for the one before the port. -/
theorem hostPort_colon (absent : form.port = none) (colon : 58 ∈ form.path) :
    (hostPort (form.host ++ form.tail)).1 ≠ form.host := by
  rw [tail,absent,Option.elim_none,List.nil_append,hostPort,if_pos (by simp [colon])]
  rcases form.rooted with none | ⟨p,slash⟩
  · simp [none] at colon
  · have long : (form.host ++ form.path).takeWhile (· ≠ 58) = form.host ++ 47 :: p.takeWhile (· ≠ 58) := by
      rw [slash,List.takeWhile_append_of_pos]
      · simp
      · intro c member
        simpa using fun same : c = 58 => form.plain.1 (same ▸ member)
    rw [long]
    simp

/-- The number of the port is one that `atoi` reads and that does not stand for a missing port, and without a port no
colon follows. -/
def Readable : Prop :=
  (∀ d, form.port = some d → 0 < digitsValue d ∧ digitsValue d < 2 ^ 31) ∧ (form.port = none → 58 ∉ form.path)

theorem parsed_iff (plain : 0 ∉ form.url) :
    parseUrl form.url = some (some (form.host,form.portNumber)) ↔ form.Readable := by
  rw [form.parseUrl_url plain]
  cases given : form.port with
  | none =>
    by_cases colon : 58 ∈ form.path
    · have wrong := form.hostPort_colon given colon
      simp [Readable,given,colon,wrong]
    · simp [Readable,given,colon,form.hostPort_none given colon,portNumber]
  | some d =>
    obtain ⟨some,digits⟩ := form.digits d given
    have stop : ∀ c ∈ form.path.head?, ¬(48 ≤ c ∧ c ≤ 57) := by
      intro c first
      rw [form.path_head c first]
      decide
    have number := atoi_digits some digits stop
    have small := BitVec.two_mul_toInt_lt (x := BitVec.ofInt 32 (strtol (d ++ form.path)))
    rw [← atoi] at small
    simp only [Readable,given,form.hostPort_port given,portNumber,Option.elim_some,Option.some.injEq,Prod.mk.injEq,
      true_and,forall_eq',reduceCtorEq,false_implies,and_true]
    rw [← number]
    split
    · rename_i zero
      omega
    · rename_i other
      omega

end UrlForm

/-- The urls that are taken as the grammar says are those without a colon and those of the form with a port from 1
to 2147483647, or with none and no colon in the path. -/
theorem parsed_as_grammar_iff (plain : 0 ∉ url) :
    ParsedAsGrammar url ↔ 58 ∉ url ∨ ∃ form : UrlForm, form.url = url ∧ form.Readable := by
  constructor
  · rintro (⟨form,rfl,parsed⟩ | ⟨_,refused⟩)
    · exact .inr ⟨form,rfl,(form.parsed_iff plain).mp parsed⟩
    · refine .inl fun colon => ?_
      obtain ⟨scheme,rest,rfl,clean⟩ := List.eq_append_cons_of_mem colon
      rw [parseUrl_eq plain,urlHost_eq clean] at refused
      split at refused <;> simp at refused
  · rintro (clean | ⟨form,rfl,readable⟩)
    · refine .inr ⟨?_,?_⟩
      · rintro ⟨form,rfl⟩
        exact clean (by simp [form.url_eq])
      · rw [parseUrl_eq plain,if_neg (fun both => clean both.1),urlHost,dropWhile_all clean]
    · exact .inl ⟨form,rfl,(form.parsed_iff plain).mpr readable⟩

theorem parsed_as_grammar_iff_path :
    ParsedAsGrammar (text "citrusleaf://db:3000/test") ↔ 58 ∉ text "citrusleaf://db:3000/test" ∨
      ∃ form : UrlForm, form.url = text "citrusleaf://db:3000/test" ∧ form.Readable :=
  parsed_as_grammar_iff (by decide)

/-- Any scheme will do. -/
theorem other_scheme_taken : ¬∀ url : CString, 0 ∉ url → ParsedAsGrammar url := by
  intro every
  have parsed : parseUrl (text "http://db:3000") = some (some (text "db",3000)) := by decide
  rcases every (text "http://db:3000") (by decide) with ⟨form,same,_⟩ | ⟨_,refused⟩
  · have first := congrArg List.head? same
    rw [form.url_eq,show text "citrusleaf" = 99 :: text "itrusleaf" by decide,
      show text "http://db:3000" = 104 :: text "ttp://db:3000" by decide] at first
    simp at first
  · rw [parsed] at refused
    exact absurd refused (by decide)

end Citrusleaf.Cluster
