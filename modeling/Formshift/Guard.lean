/-
Formshift/Guard.lean

The request guard (`app.py`, `config.py`): the Host and Origin allowlist, then
the bearer token.

Two results.  `guard_answers_iff`: the guard gives the answer it should to
every request but those that bring a bearer credential `compare_digest` will
not compare.  `allowlist_exact_iff`: the host parser accepts exactly the
allowlisted authorities with any port, but for headers in which something that
is no port stands where the port is stripped (`Misread`).
-/
import Formshift.Lib.Text

namespace Formshift

open Py Text

/-! ### The guard -/

/-- What of `ServerConfig` the guard reads. -/
structure ServerConfig where
  token : String
  allowedHosts : List String

def defaultAllowedHosts : List String := ["127.0.0.1", "localhost", "[::1]", "::1"]

/-- What of a request the guard reads; a header is `none` when absent. -/
structure Request where
  path : String
  host : Option String
  origin : Option String
  authorization : Option String

structure Response where
  statusCode : Nat
  content : String
  headers : List (String × String) := []
  deriving DecidableEq

/-- The guard answers itself, or hands the request on. -/
inductive Answer where
  | respond (r : Response)
  | callNext
  deriving DecidableEq

inductive TypeError where
  | compareDigest
  deriving DecidableEq

def authExemptPaths : List String := ["/health"]

def hostNotAllowed : Response := { statusCode := 403, content := "Host not allowed" }

def originNotAllowed : Response := { statusCode := 403, content := "Origin not allowed" }

def unauthorized : Response where
  statusCode := 401
  content := "Missing or invalid bearer token"
  headers := [("WWW-Authenticate", "Bearer")]

/-- `_hostname_of`: strip the port, keep the brackets of an IPv6 literal. -/
def hostnameOf (headerValue : Text) : Text :=
  let value := strip headerValue
  if value.head? = some '[' then before ']' value ++ [']']
  else if ':' ∈ value then beforeLast ':' value
  else value

def originSchemes : List Text := ["http://".toList, "https://".toList]

/-- `_origin_hostname`: `none` if this is no plain http(s) origin. -/
def originHostname (origin : Text) : Option Text :=
  (originSchemes.find? fun scheme => scheme.isPrefixOf origin).map fun scheme =>
    hostnameOf (origin.drop scheme.length)

section Guard

variable (config : ServerConfig)

def isAllowed (host : Text) : Bool := String.ofList host ∈ config.allowedHosts

/-- The Host check. -/
def hostAllowed (header : String) : Bool := isAllowed config (hostnameOf header.toList)

/-- The Origin check. -/
def originAllowed (header : String) : Bool :=
  match originHostname header.toList with
  | none => false
  | some host => isAllowed config host

/-- `secrets.compare_digest` on two strings. -/
def compareDigest (a b : Text) : Except TypeError Bool :=
  if IsAscii a ∧ IsAscii b then .ok (a = b) else .error .compareDigest

/-- The test of the Authorization header: is this request refused? -/
def authRefused (authorization : Option String) : Except TypeError Bool :=
  let (scheme, credential) := partition ' ' (authorization.getD "").toList
  if lower scheme ≠ "bearer".toList then .ok true
  else (compareDigest (strip credential) config.token.toList).map not

def guard (request : Request) : Except TypeError Answer := do
  if hostAllowed config (request.host.getD "") = false then
    return .respond hostNotAllowed
  if ∃ origin ∈ request.origin, originAllowed config origin = false then
    return .respond originNotAllowed
  if request.path ∉ authExemptPaths then
    if ← authRefused config request.authorization then
      return .respond unauthorized
  return .callNext

/-! ### What it should answer -/

/-- Both allowlist checks pass. -/
def FromAllowed (request : Request) : Prop :=
  hostAllowed config (request.host.getD "") = true ∧
    ∀ origin ∈ request.origin, originAllowed config origin = true

/-- This header brings `credential` under the bearer scheme. -/
def Bearer (authorization : Option String) (credential : Text) : Prop :=
  ∃ scheme rest : Text, ' ' ∉ scheme ∧ lower scheme = "bearer".toList ∧ credential = strip rest ∧
    ((authorization.getD "").toList = scheme ++ ' ' :: rest ∨
      (authorization.getD "").toList = scheme ∧ rest = [])

/-- Exempt, or with the configured token. -/
def Authorized (request : Request) : Prop :=
  request.path = "/health" ∨ Bearer request.authorization config.token.toList

/-- The answer of the guard, as a table. -/
structure AnswersWell (request : Request) : Prop where
  forbidden : ¬ FromAllowed config request →
    ∃ r, guard config request = .ok (.respond r) ∧ r.statusCode = 403
  forwarded : FromAllowed config request → Authorized config request →
    guard config request = .ok .callNext
  unauthorized : FromAllowed config request → ¬ Authorized config request →
    guard config request = .ok (.respond unauthorized)

/-- The token is asked for, a bearer credential is there, and one of the two
is not ASCII. -/
def Incomparable (request : Request) : Prop :=
  FromAllowed config request ∧ request.path ≠ "/health" ∧
    ∃ credential, Bearer request.authorization credential ∧
      ¬ (IsAscii credential ∧ IsAscii config.token.toList)

variable {config}

/-- One header, one credential. -/
theorem Bearer.unique {authorization : Option String} {a b : Text} (ha : Bearer authorization a)
    (hb : Bearer authorization b) : a = b := by
  have hpart : ∀ {c : Text}, Bearer authorization c →
      c = strip (partition ' ' (authorization.getD "").toList).2 := by
    rintro c ⟨scheme, rest, hnot, -, rfl, heq | ⟨heq, rfl⟩⟩
    · rw [heq, partition_append hnot]
    · rw [heq, partition_of_notMem hnot]
  rw [hpart ha, hpart hb]

/-- The header test, by whether there is a bearer credential. -/
theorem authRefused_bearer {authorization : Option String} {credential : Text}
    (h : Bearer authorization credential) :
    authRefused config authorization = (compareDigest credential config.token.toList).map not := by
  obtain ⟨scheme, rest, hnot, hlower, rfl, heq | ⟨heq, rfl⟩⟩ := h
  · simp [authRefused, heq, partition_append hnot, hlower]
  · simp [authRefused, heq, partition_of_notMem hnot, hlower]

theorem authRefused_other {authorization : Option String}
    (h : ∀ credential, ¬ Bearer authorization credential) :
    authRefused config authorization = .ok true := by
  unfold authRefused
  by_cases hspace : ' ' ∈ (authorization.getD "").toList
  · obtain ⟨scheme, rest, heq, hnot⟩ := exists_first hspace
    have hlower : lower scheme ≠ "bearer".toList := fun hl =>
      h _ ⟨scheme, rest, hnot, hl, rfl, Or.inl heq⟩
    simp only [heq, partition_append hnot]
    exact if_pos hlower
  · have hlower : lower (authorization.getD "").toList ≠ "bearer".toList := fun hl =>
      h _ ⟨_, [], hspace, hl, rfl, Or.inr ⟨rfl, rfl⟩⟩
    simp only [partition_of_notMem hspace]
    exact if_pos hlower

theorem guard_forbidden {request : Request} (h : ¬ FromAllowed config request) :
    ∃ r, guard config request = .ok (.respond r) ∧ r.statusCode = 403 := by
  unfold guard
  by_cases hhost : hostAllowed config (request.host.getD "") = false
  · exact ⟨hostNotAllowed, by simp [hhost, pure, Except.pure], rfl⟩
  · have horigin : ∃ origin ∈ request.origin, originAllowed config origin = false := by
      by_contra hnone
      push Not at hnone
      exact h ⟨by simpa using hhost, fun o ho => by simpa using hnone o ho⟩
    exact ⟨originNotAllowed, by rw [if_neg hhost, if_pos horigin]; rfl, rfl⟩

/-- Past the allowlist, only the path and the token count. -/
theorem guard_allowed {request : Request} (h : FromAllowed config request) :
    guard config request = if request.path = "/health" then .ok .callNext
      else (authRefused config request.authorization).map fun refused =>
        if refused then .respond unauthorized else .callNext := by
  have hhost : ¬ hostAllowed config (request.host.getD "") = false := by simp [h.1]
  have horigin : ¬ ∃ origin ∈ request.origin, originAllowed config origin = false := by
    rintro ⟨o, ho, hfalse⟩
    rw [h.2 o ho] at hfalse
    cases hfalse
  unfold guard
  rw [if_neg hhost, if_neg horigin]
  by_cases hpath : request.path = "/health"
  · simp [hpath, authExemptPaths, pure, Except.pure]
  · have hexempt : request.path ∉ authExemptPaths := by simpa [authExemptPaths] using hpath
    rw [if_pos hexempt, if_neg hpath]
    cases authRefused config request.authorization with
    | error e => rfl
    | ok refused => cases refused <;> rfl

/-- **The guard decides every request but those it cannot compare**: it answers
as its table says exactly where no bearer credential, or token, has characters
`compare_digest` does not take. -/
theorem guard_answers_iff (config : ServerConfig) (request : Request) :
    AnswersWell config request ↔ ¬ Incomparable config request := by
  constructor
  -- an incomparable pair makes `compare_digest` raise, and then nobody is answered well
  · rintro hwell ⟨hfrom, hpath, credential, hbearer, hascii⟩
    have hraise : guard config request = .error .compareDigest := by
      rw [guard_allowed hfrom, if_neg hpath, authRefused_bearer hbearer, compareDigest,
        if_neg hascii]
      rfl
    by_cases hauth : Authorized config request
    · cases hraise.symm.trans (hwell.forwarded hfrom hauth)
    · cases hraise.symm.trans (hwell.unauthorized hfrom hauth)
  · intro hcomp
    refine ⟨guard_forbidden, fun hfrom hauth => ?_, fun hfrom hauth => ?_⟩
    · rw [guard_allowed hfrom]
      by_cases hpath : request.path = "/health"
      · exact if_pos hpath
      · have hbearer : Bearer request.authorization config.token.toList :=
          hauth.resolve_left hpath
        -- the credential is the token, so the pair being comparable makes both ASCII
        have hascii : IsAscii config.token.toList := by
          by_contra hnot
          exact hcomp ⟨hfrom, hpath, _, hbearer, fun h => hnot h.2⟩
        rw [if_neg hpath, authRefused_bearer hbearer, compareDigest, if_pos ⟨hascii, hascii⟩]
        simp [Except.map]
    · have hpath : request.path ≠ "/health" := fun h => hauth (Or.inl h)
      rw [guard_allowed hfrom, if_neg hpath]
      by_cases hbearer : ∃ credential, Bearer request.authorization credential
      · obtain ⟨credential, hbearer⟩ := hbearer
        have hascii : IsAscii credential ∧ IsAscii config.token.toList := by
          by_contra hnot
          exact hcomp ⟨hfrom, hpath, credential, hbearer, hnot⟩
        have hne : credential ≠ config.token.toList := fun h => hauth (Or.inr (h ▸ hbearer))
        rw [authRefused_bearer hbearer, compareDigest, if_pos hascii]
        simp [Except.map, hne]
      · rw [authRefused_other fun c hc => hbearer ⟨c, hc⟩]
        rfl

end Guard

/-- A bearer credential that is not ASCII ends in a `TypeError`. -/
theorem guard_answers_fails : ¬ ∀ (config : ServerConfig) (request : Request),
    AnswersWell config request := by
  intro h
  have hwell := h ⟨"secret", ["localhost"]⟩ ⟨"/v1/modules", some "localhost", none, some "Bearer é"⟩
  have hfrom : FromAllowed ⟨"secret", ["localhost"]⟩
      ⟨"/v1/modules", some "localhost", none, some "Bearer é"⟩ :=
    ⟨by decide +kernel, by simp⟩
  have hraise : guard ⟨"secret", ["localhost"]⟩
      ⟨"/v1/modules", some "localhost", none, some "Bearer é"⟩ = .error .compareDigest := by
    decide +kernel
  by_cases hauth : Authorized ⟨"secret", ["localhost"]⟩
      ⟨"/v1/modules", some "localhost", none, some "Bearer é"⟩
  · cases hraise.symm.trans (hwell.forwarded hfrom hauth)
  · cases hraise.symm.trans (hwell.unauthorized hfrom hauth)

/-! ### The allowlist -/

/-- A host name or IPv4 address, or an IPv6 literal in brackets. -/
inductive HostForm : Text → Prop
  | name {e : Text} (hspace : e.any isSpace = false) (hcolon : ':' ∉ e)
      (hhead : e.head? ≠ some '[') : HostForm e
  | bracketed {body : Text} (hspace : body.any isSpace = false) (hbody : ']' ∉ body) :
      HostForm ('[' :: body ++ [']'])

/-- Nothing, or a colon and digits, possibly none. -/
def PortTail (tail : Text) : Prop :=
  tail = [] ∨ ∃ digits, tail = ':' :: digits ∧ digits.all isDigit = true

section Allowlist

variable (allowed : List String)

/-- An entry of the list, with or without a port. -/
def Authority (value : Text) : Prop :=
  ∃ e ∈ allowed, ∃ tail, value = e.toList ++ tail ∧ PortTail tail

/-- An entry, and then something that stands where a port would and is none: a
bracketed literal whose bracket is not closed or is followed by other text, or
a name, a colon and no digits. -/
def Misread (value : Text) : Prop :=
  ∃ e ∈ allowed,
    (e.toList.head? = some '[' ∧
      (value ++ [']'] = e.toList ∨ ∃ tail, value = e.toList ++ tail ∧ ¬ PortTail tail)) ∨
    (e.toList.head? ≠ some '[' ∧
      ∃ port, value = e.toList ++ ':' :: port ∧ ':' ∉ port ∧ ¬ PortTail (':' :: port))

/-- An http or https origin with an authority of the list. -/
def OriginAuthority (origin : Text) : Prop :=
  ∃ scheme ∈ originSchemes, ∃ value, origin = scheme ++ value ∧ Authority allowed value

/-- An http or https origin whose authority is misread, or is one only after
trimming. -/
def OriginMisread (origin : Text) : Prop :=
  ∃ scheme ∈ originSchemes, ∃ value, origin = scheme ++ value ∧
    (Misread allowed (strip value) ∨ Authority allowed (strip value) ∧ strip value ≠ value)

variable {allowed}

theorem isDigit_ne_colon {digits : Text} (h : digits.all isDigit = true) : ':' ∉ digits := by
  intro hin
  exact absurd (List.all_eq_true.mp h _ hin) (by decide)

theorem isSpace_of_isDigit {c : Char} (h : isDigit c = true) : isSpace c = false := by
  have hle : 48 ≤ c.toNat ∧ c.toNat ≤ 57 := by
    simpa [isDigit, Char.le_def, UInt32.le_iff_toNat_le] using h
  rw [isSpace, List.contains_eq_mem, decide_eq_false_iff_not]
  simp only [List.mem_cons, List.not_mem_nil, or_false]
  omega

/-- A tail begins with a colon, if at all. -/
theorem PortTail.head {tail : Text} (h : PortTail tail) : tail = [] ∨ tail.head? = some ':' := by
  rcases h with rfl | ⟨digits, rfl, -⟩
  · exact Or.inl rfl
  · exact Or.inr rfl

theorem mem_of_toList {e : String} (he : e ∈ allowed) {value : Text} (h : e.toList = value) :
    String.ofList value ∈ allowed := by
  rwa [← h, String.ofList_toList]

/-- An entry that begins with a bracket is a bracketed literal. -/
theorem HostForm.of_bracket {e : Text} (hf : HostForm e) (h : e.head? = some '[') :
    ∃ body, ']' ∉ body ∧ e = '[' :: body ++ [']'] := by
  cases hf with
  | name _ _ hhead => exact absurd h hhead
  | bracketed _ hbody => exact ⟨_, hbody, rfl⟩

theorem HostForm.of_name {e : Text} (hf : HostForm e) (h : e.head? ≠ some '[') : ':' ∉ e := by
  cases hf with
  | name _ hcolon _ => exact hcolon
  | bracketed => exact absurd rfl h

theorem HostForm.space {e : Text} (hf : HostForm e) : e.any isSpace = false := by
  cases hf with
  | name hspace _ _ => exact hspace
  | bracketed hspace _ =>
      have hopen : isSpace '[' = false := by decide +kernel
      have hclose : isSpace ']' = false := by decide +kernel
      simp [hspace, hopen, hclose]

/-- A value with a bracket at its head and the bracket closed. -/
theorem split_closed (hform : ∀ e ∈ allowed, HostForm e.toList) {a b : Text} (hnot : ']' ∉ a)
    (hhead : (a ++ ']' :: b).head? = some '[') :
    (Authority allowed (a ++ ']' :: b) ↔ String.ofList (a ++ [']']) ∈ allowed ∧ PortTail b) ∧
      (Misread allowed (a ++ ']' :: b) ↔
        String.ofList (a ++ [']']) ∈ allowed ∧ ¬ PortTail b) := by
  have hcons : a ++ ']' :: b = (a ++ [']']) ++ b := by simp
  -- an entry at the head of the value is its bracketed literal
  have hentry : ∀ e ∈ allowed, ∀ tail, e.toList.head? = some '[' →
      a ++ ']' :: b = e.toList ++ tail → e.toList = a ++ [']'] ∧ tail = b := by
    intro e he tail hbr heq
    obtain ⟨body, hbody, hl⟩ := (hform e he).of_bracket hbr
    have hbody' : ']' ∉ '[' :: body := by simpa using hbody
    rw [hl, List.append_assoc, List.singleton_append] at heq
    have hpart := congrArg (partition ']') heq
    rw [partition_append hnot, partition_append hbody'] at hpart
    obtain ⟨rfl, rfl⟩ := Prod.mk.inj hpart
    exact ⟨hl, rfl⟩
  have hanot : a ≠ [] := by
    rintro rfl
    cases hhead
  have hahead : (a ++ [']']).head? = some '[' := by
    cases a with
    | nil => exact absurd rfl hanot
    | cons c cs => exact hhead
  constructor
  · constructor
    · rintro ⟨e, he, tail, heq, htail⟩
      have hbr : e.toList.head? = some '[' := by
        cases hl : e.toList with
        | cons c cs => rw [← hhead, heq, hl]; rfl
        | nil =>
            -- the value would be a tail, and a tail begins with a colon
            rw [hl, List.nil_append] at heq
            rw [heq] at hhead
            rcases htail.head with rfl | hcolon
            · cases hhead
            · cases hhead.symm.trans hcolon
      obtain ⟨hl, rfl⟩ := hentry e he tail hbr heq
      exact ⟨mem_of_toList he hl, htail⟩
    · rintro ⟨hmem, htail⟩
      exact ⟨_, hmem, b, by rw [String.toList_ofList, hcons], htail⟩
  · constructor
    · rintro ⟨e, he, ⟨hbr, heq | ⟨tail, heq, htail⟩⟩ | ⟨hbr, port, heq, -⟩⟩
      · obtain ⟨body, hbody, hl⟩ := (hform e he).of_bracket hbr
        rw [hl] at heq
        have hin : ']' ∈ '[' :: body := by
          rw [← List.append_cancel_right heq]
          simp
        exact absurd hin (by simpa using hbody)
      · obtain ⟨hl, rfl⟩ := hentry e he tail hbr heq
        exact ⟨mem_of_toList he hl, htail⟩
      · rw [heq] at hhead
        cases hl : e.toList with
        | nil => rw [hl] at hhead; cases hhead
        | cons c cs => rw [hl] at hhead hbr; exact absurd hhead hbr
    · rintro ⟨hmem, htail⟩
      refine ⟨_, hmem, Or.inl ⟨by rw [String.toList_ofList]; exact hahead, Or.inr ⟨b, ?_, htail⟩⟩⟩
      rw [String.toList_ofList, hcons]

/-- A bracket at the head that is never closed. -/
theorem split_unclosed (hform : ∀ e ∈ allowed, HostForm e.toList) {value : Text}
    (hnot : ']' ∉ value) (hhead : value.head? = some '[') :
    ¬ Authority allowed value ∧
      (Misread allowed value ↔ String.ofList (value ++ [']']) ∈ allowed) := by
  -- an entry in brackets closes its bracket, and the value has none that closes
  have hentry : ∀ e ∈ allowed, ∀ tail, e.toList.head? = some '[' → value ≠ e.toList ++ tail := by
    rintro e he tail hbr rfl
    obtain ⟨body, -, hl⟩ := (hform e he).of_bracket hbr
    exact hnot (by simp [hl])
  constructor
  · rintro ⟨e, he, tail, heq, htail⟩
    by_cases hbr : e.toList.head? = some '['
    · exact hentry e he tail hbr heq
    · rw [heq] at hhead
      cases hl : e.toList with
      | nil =>
          rw [hl, List.nil_append] at hhead
          rcases htail.head with rfl | hcolon
          · cases hhead
          · cases hhead.symm.trans hcolon
      | cons c cs => rw [hl] at hhead hbr; exact hbr hhead
  · constructor
    · rintro ⟨e, he, ⟨hbr, heq | ⟨tail, heq, -⟩⟩ | ⟨hbr, port, heq, -⟩⟩
      · exact mem_of_toList he heq.symm
      · exact absurd heq (hentry e he tail hbr)
      · rw [heq] at hhead
        cases hl : e.toList with
        | nil => rw [hl] at hhead; cases hhead
        | cons c cs => rw [hl] at hhead hbr; exact absurd hhead hbr
    -- `partition` put the missing bracket back
    · intro hmem
      refine ⟨_, hmem, Or.inl ⟨?_, Or.inl (String.toList_ofList).symm⟩⟩
      rw [String.toList_ofList, List.head?_append, hhead]
      rfl

/-- A name and a colon. -/
theorem split_colon (hform : ∀ e ∈ allowed, HostForm e.toList) {a b : Text} (hnot : ':' ∉ b)
    (hhead : (a ++ ':' :: b).head? ≠ some '[') :
    (Authority allowed (a ++ ':' :: b) ↔
        String.ofList a ∈ allowed ∧ PortTail (':' :: b)) ∧
      (Misread allowed (a ++ ':' :: b) ↔
        String.ofList a ∈ allowed ∧ ¬ PortTail (':' :: b)) := by
  -- the value does not start with a bracket, so no entry it starts with does
  have hname : ∀ e ∈ allowed, ∀ tail, a ++ ':' :: b = e.toList ++ tail →
      e.toList.head? ≠ some '[' := by
    intro e he tail heq hbr
    refine hhead ?_
    rw [heq, List.head?_append, hbr]
    rfl
  -- the last colon splits it, and the port has none
  have hentry : ∀ e ∈ allowed, ∀ port, ':' ∉ port → a ++ ':' :: b = e.toList ++ ':' :: port →
      e.toList = a ∧ port = b := by
    intro e he port hport heq
    have hlast := congrArg (beforeLast ':') heq
    rw [beforeLast_append hnot, beforeLast_append hport] at hlast
    rw [← hlast, List.append_cancel_left_eq] at heq
    exact ⟨hlast.symm, (List.cons.inj heq).2.symm⟩
  have hahead : (String.ofList a).toList.head? ≠ some '[' := by
    rw [String.toList_ofList]
    intro hbr
    refine hhead ?_
    rw [List.head?_append, hbr]
    rfl
  constructor
  · constructor
    · rintro ⟨e, he, tail, heq, htail⟩
      have hcolon := (hform e he).of_name (hname e he tail heq)
      rcases htail with rfl | ⟨digits, rfl, hdigits⟩
      · rw [List.append_nil] at heq
        exact absurd (by rw [← heq]; simp) hcolon
      · obtain ⟨hl, rfl⟩ := hentry e he digits (isDigit_ne_colon hdigits) heq
        exact ⟨mem_of_toList he hl, Or.inr ⟨_, rfl, hdigits⟩⟩
    · rintro ⟨hmem, htail⟩
      exact ⟨_, hmem, _, by rw [String.toList_ofList], htail⟩
  · constructor
    · rintro ⟨e, he, ⟨hbr, heq | ⟨tail, heq, -⟩⟩ | ⟨-, port, heq, hport, htail⟩⟩
      -- an entry in brackets does not start the value
      · refine absurd ?_ hhead
        rw [← heq] at hbr
        cases a with
        | nil => cases hbr
        | cons c cs => exact hbr
      · exact absurd hbr (hname e he tail heq)
      · obtain ⟨hl, rfl⟩ := hentry e he port hport heq
        exact ⟨mem_of_toList he hl, htail⟩
    · rintro ⟨hmem, htail⟩
      exact ⟨_, hmem, Or.inr ⟨hahead, b, by rw [String.toList_ofList], hnot, htail⟩⟩

/-- Neither bracket nor colon. -/
theorem split_plain (hform : ∀ e ∈ allowed, HostForm e.toList) {value : Text}
    (hnot : ':' ∉ value) (hhead : value.head? ≠ some '[') :
    (Authority allowed value ↔ String.ofList value ∈ allowed) ∧ ¬ Misread allowed value := by
  constructor
  · constructor
    · rintro ⟨e, he, tail, heq, rfl | ⟨digits, rfl, -⟩⟩
      · exact mem_of_toList he (by rw [heq, List.append_nil])
      · exact absurd (by rw [heq]; simp) hnot
    · intro hmem
      exact ⟨_, hmem, [], by rw [String.toList_ofList, List.append_nil], Or.inl rfl⟩
  · rintro ⟨e, he, ⟨hbr, heq | ⟨tail, heq, -⟩⟩ | ⟨-, port, heq, -⟩⟩
    · obtain ⟨body, -, hl⟩ := (hform e he).of_bracket hbr
      rw [hl] at heq
      rw [List.append_cancel_right heq] at hhead
      exact hhead rfl
    · refine hhead ?_
      rw [heq, List.head?_append, hbr]
      rfl
    · exact absurd (by rw [heq]; simp) hnot

/-- Both readings of a trimmed value turn on the host the parser finds and on
what follows it: `good` says that this is a port or nothing. -/
theorem hostname_split (hform : ∀ e ∈ allowed, HostForm e.toList) (header : Text) :
    ∃ good : Prop,
      (Authority allowed (strip header) ↔
        String.ofList (hostnameOf header) ∈ allowed ∧ good) ∧
      (Misread allowed (strip header) ↔
        String.ofList (hostnameOf header) ∈ allowed ∧ ¬ good) := by
  unfold hostnameOf
  generalize strip header = value
  by_cases hhead : value.head? = some '['
  · simp only [if_pos hhead]
    by_cases hclosed : ']' ∈ value
    -- a closed bracket: what follows it decides
    · obtain ⟨a, b, rfl, hnot⟩ := exists_first hclosed
      rw [before_append hnot]
      exact ⟨PortTail b, split_closed hform hnot hhead⟩
    -- an open bracket is never an authority
    · obtain ⟨hauth, hmis⟩ := split_unclosed hform hclosed hhead
      rw [before_of_notMem hclosed]
      exact ⟨False, by simpa using hauth, by simpa using hmis⟩
  · simp only [if_neg hhead]
    by_cases hcolon : ':' ∈ value
    -- a name and what stands behind its last colon
    · obtain ⟨a, b, rfl, hnot⟩ := exists_last hcolon
      rw [if_pos hcolon, beforeLast_append hnot]
      exact ⟨PortTail (':' :: b), split_colon hform hnot hhead⟩
    -- a bare name
    · obtain ⟨hauth, hmis⟩ := split_plain hform hcolon hhead
      rw [if_neg hcolon]
      exact ⟨True, by simpa using hauth, by simpa using hmis⟩

/-- The two readings exclude each other, and together they are what is accepted. -/
theorem accepted_iff (hform : ∀ e ∈ allowed, HostForm e.toList) (header : Text) :
    (String.ofList (hostnameOf header) ∈ allowed ↔
      Authority allowed (strip header) ∨ Misread allowed (strip header)) ∧
      ¬ (Authority allowed (strip header) ∧ Misread allowed (strip header)) := by
  obtain ⟨good, hauth, hmis⟩ := hostname_split hform header
  rw [hauth, hmis]
  by_cases hgood : good <;> simp [hgood]

/-- An authority has nothing to trim. -/
theorem Authority.strip_eq (hform : ∀ e ∈ allowed, HostForm e.toList) {value : Text}
    (h : Authority allowed value) : strip value = value := by
  refine strip_of_noSpace ?_
  obtain ⟨e, he, tail, rfl, rfl | ⟨digits, rfl, hdigits⟩⟩ := h
  · rw [List.append_nil]
    exact (hform e he).space
  · have hcolon : isSpace ':' = false := by decide +kernel
    have htail : digits.any isSpace = false := by
      rw [List.any_eq_false]
      intro c hc
      simp [isSpace_of_isDigit (List.all_eq_true.mp hdigits c hc)]
    rw [List.any_append, List.any_cons, (hform e he).space, hcolon, htail]
    rfl

end Allowlist

section Checks

variable (config : ServerConfig)

/-- The two schemes are no prefixes of one another. -/
theorem find_scheme {scheme : Text} (hscheme : scheme ∈ originSchemes) (value : Text) :
    originSchemes.find? (fun s => s.isPrefixOf (scheme ++ value)) = some scheme := by
  have hhttp : "http://".toList = ['h', 't', 't', 'p', ':', '/', '/'] := by decide
  have hhttps : "https://".toList = ['h', 't', 't', 'p', 's', ':', '/', '/'] := by decide
  rw [originSchemes, hhttp, hhttps] at *
  simp only [List.mem_cons, List.not_mem_nil, or_false] at hscheme
  rcases hscheme with rfl | rfl
  · rfl
  · rfl

theorem originAllowed_iff (origin : String) :
    originAllowed config origin = true ↔ ∃ scheme ∈ originSchemes, ∃ value,
      origin.toList = scheme ++ value ∧
        String.ofList (hostnameOf value) ∈ config.allowedHosts := by
  unfold originAllowed originHostname
  constructor
  · intro h
    cases hf : originSchemes.find? (fun scheme => scheme.isPrefixOf origin.toList) with
    | none =>
        rw [hf] at h
        cases h
    | some scheme =>
        have hpre : scheme.isPrefixOf origin.toList = true := by simpa using List.find?_some hf
        obtain ⟨value, hvalue⟩ := List.isPrefixOf_iff_prefix.mp hpre
        refine ⟨scheme, List.mem_of_find?_eq_some hf, value, hvalue.symm, ?_⟩
        rw [hf, ← hvalue] at h
        simpa only [Option.map_some, List.drop_left, isAllowed, decide_eq_true_eq] using h
  · rintro ⟨scheme, hscheme, value, heq, hmem⟩
    rw [heq, find_scheme hscheme value]
    simpa only [Option.map_some, List.drop_left, isAllowed, decide_eq_true_eq] using hmem

/-- A header is one scheme and one value. -/
theorem scheme_unique {scheme scheme' value value' : Text} (h : scheme ∈ originSchemes)
    (h' : scheme' ∈ originSchemes) (heq : scheme ++ value = scheme' ++ value') :
    scheme = scheme' ∧ value = value' := by
  have hfind := find_scheme h value
  rw [heq, find_scheme h' value'] at hfind
  obtain rfl := Option.some.inj hfind
  exact ⟨rfl, List.append_cancel_left heq⟩

/-- **The allowlist is exact but for what the port stripper misreads.**  The
Host check passes exactly the trimmed headers that are an entry with or
without a port, and the Origin check exactly these behind `http://` or
`https://`, if and only if nothing misread stands there. -/
theorem allowlist_exact_iff (hform : ∀ e ∈ config.allowedHosts, HostForm e.toList)
    (header : String) :
    ((hostAllowed config header = true ↔
        Authority config.allowedHosts (strip header.toList)) ↔
      ¬ Misread config.allowedHosts (strip header.toList)) ∧
    ((originAllowed config header = true ↔
        OriginAuthority config.allowedHosts header.toList) ↔
      ¬ OriginMisread config.allowedHosts header.toList) := by
  constructor
  · have hhost : hostAllowed config header = true ↔
        String.ofList (hostnameOf header.toList) ∈ config.allowedHosts := by
      simp [hostAllowed, isAllowed]
    obtain ⟨haccept, hexcl⟩ := accepted_iff hform header.toList
    rw [hhost, haccept]
    tauto
  · rw [originAllowed_iff]
    by_cases hscheme : ∃ scheme ∈ originSchemes, ∃ value, header.toList = scheme ++ value
    · obtain ⟨scheme, hs, value, heq⟩ := hscheme
      obtain ⟨haccept, hexcl⟩ := accepted_iff hform value
      -- the header has this one scheme, so all three speak of this one value
      have hone : ∀ P : Text → Prop, (∃ scheme ∈ originSchemes, ∃ value,
          header.toList = scheme ++ value ∧ P value) ↔ P value := by
        intro P
        constructor
        · rintro ⟨scheme', hs', value', heq', hP⟩
          obtain ⟨-, rfl⟩ := scheme_unique hs hs' (heq.symm.trans heq')
          exact hP
        · exact fun hP => ⟨scheme, hs, value, heq, hP⟩
      have hstrip : Authority config.allowedHosts value → strip value = value :=
        fun h => h.strip_eq hform
      rw [hone, OriginAuthority, hone, OriginMisread, hone, haccept]
      by_cases htrim : strip value = value
      · rw [htrim] at hexcl ⊢
        tauto
      · have hno : ¬ Authority config.allowedHosts value := fun h => htrim (hstrip h)
        tauto
    · -- no origin of the web: refused, and nothing to misread
      have hnone : ∀ P : Text → Prop, ¬ ∃ scheme ∈ originSchemes, ∃ value,
          header.toList = scheme ++ value ∧ P value := by
        rintro P ⟨scheme, hs, value, heq, -⟩
        exact hscheme ⟨scheme, hs, value, heq⟩
      exact iff_of_true (iff_of_false (hnone _) (hnone _)) (hnone _)

end Checks

/-- The default hosts but the bare IPv6 address, which is no authority. -/
def localHosts : ServerConfig := ⟨"secret", ["127.0.0.1", "localhost", "[::1]"]⟩

theorem localHosts_form : ∀ e ∈ localHosts.allowedHosts, HostForm e.toList := by
  intro e he
  simp only [localHosts, List.mem_cons, List.not_mem_nil, or_false] at he
  rcases he with rfl | rfl | rfl
  · exact .name (by decide +kernel) (by decide) (by decide)
  · exact .name (by decide +kernel) (by decide) (by decide)
  · have hbracket : "[::1]".toList = '[' :: "::1".toList ++ [']'] := by decide
    rw [hbracket]
    exact .bracketed (by decide +kernel) (by decide)

/-- `[::1].evil.example` passes for `[::1]`. -/
theorem allowlist_exact_fails : ¬ ∀ (config : ServerConfig),
    (∀ e ∈ config.allowedHosts, HostForm e.toList) → ∀ header : String,
      (hostAllowed config header = true ↔
        Authority config.allowedHosts (strip header.toList)) := by
  intro h
  have haccept : hostAllowed localHosts "[::1].evil.example" = true := by decide +kernel
  have hauth := (h localHosts localHosts_form "[::1].evil.example").mp haccept
  have hmis : Misread localHosts.allowedHosts (strip "[::1].evil.example".toList) := by
    have htail : ¬ PortTail ".evil.example".toList := fun ht => by
      rcases ht.head with hnil | hcolon
      · exact absurd hnil (by decide)
      · exact absurd hcolon (by decide)
    exact ⟨"[::1]", by decide, Or.inl ⟨by decide, Or.inr ⟨_, by decide +kernel, htail⟩⟩⟩
  exact (accepted_iff localHosts_form _).2 ⟨hauth, hmis⟩

theorem allowlist_exact_iff_local :
    (originAllowed localHosts "http://localhost:3000" = true ↔
      OriginAuthority localHosts.allowedHosts "http://localhost:3000".toList) ∧
    ¬ (hostAllowed localHosts "localhost:evil" = true ↔
      Authority localHosts.allowedHosts (strip "localhost:evil".toList)) := by
  constructor
  · refine (allowlist_exact_iff localHosts localHosts_form "http://localhost:3000").2.mpr ?_
    have hauth : Authority localHosts.allowedHosts "localhost:3000".toList :=
      ⟨"localhost", by decide, ":3000".toList, by decide +kernel, Or.inr ⟨"3000".toList,
        by decide, by decide +kernel⟩⟩
    have htrim := hauth.strip_eq localHosts_form
    rintro ⟨scheme, hscheme, value, heq, hmis | ⟨-, hne⟩⟩
    · obtain ⟨-, rfl⟩ := @scheme_unique "http://".toList _ "localhost:3000".toList _
        (by decide) hscheme heq
      exact (accepted_iff localHosts_form _).2 ⟨htrim.symm ▸ hauth, hmis⟩
    · obtain ⟨-, rfl⟩ := @scheme_unique "http://".toList _ "localhost:3000".toList _
        (by decide) hscheme heq
      exact hne htrim
  · have htail : ¬ PortTail (':' :: "evil".toList) := by
      rintro (hnil | ⟨digits, heq, hdigits⟩)
      · cases hnil
      · obtain rfl := (List.cons.inj heq).2
        exact absurd hdigits (by decide)
    have hmis : Misread localHosts.allowedHosts (strip "localhost:evil".toList) :=
      ⟨"localhost", by decide, Or.inr ⟨by decide, "evil".toList, by decide +kernel, by decide,
        htail⟩⟩
    exact fun hiff =>
      (allowlist_exact_iff localHosts localHosts_form "localhost:evil").1.mp hiff hmis

end Formshift
