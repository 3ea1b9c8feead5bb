import ToiLang.Http.Build
import ToiLang.Strings.Search
import ToiLang.Url.PercentCoding

namespace ToiLang.Url

open Http (FetchUrl strstr)

/-! The two parsers of URLs: `url.parse` and `parse_fetch_url`. -/

def isSchemeChar (c : UInt8) : Bool := isAlnum c || c = byte '+' || c = byte '-' || c = byte '.'

/-- What stands in front of the last `c` and behind it. -/
def cutLast (c : UInt8) : Bytes → Option (Bytes × Bytes)
  | [] => none
  | d :: s =>
    match cutLast c s with
    | some (a, b) => some (d :: a, b)
    | none => if d = c then some ([], s) else none

/-- The loop over the digits of a port, from a value of `v`. -/
def portDigits (v : Int) : Bytes → Option Int
  | [] => some v
  | c :: s => if isDigit c then portDigits (wrap (v * 10 + (c.toNat - 48 : Nat))) s else none

/-- A character of an authority, which ends in front of a path, a query or a fragment. -/
def inAuthority (c : UInt8) : Bool := c ≠ byte '/' && c ≠ byte '?' && c ≠ byte '#'

/-- The table that `url.parse` makes. -/
structure UrlTable where
  scheme : Option Bytes
  userinfo : Option Bytes
  host : Option Bytes
  port : Option Int
  path : Bytes
  query : Option Bytes
  fragment : Option Bytes

/-- The scheme as it is written, and what stands behind its colon. -/
def urlScheme (s : Bytes) : Option Bytes × Bytes :=
  match s with
  | [] => (none, s)
  | c :: rest =>
    if isAlpha c then
      match rest.dropWhile isSchemeChar with
      | 58 :: behind => (some (c :: rest.takeWhile isSchemeChar), behind)
      | _ => (none, s)
    else (none, s)

/-- The variable `port` behind a colon. -/
def urlPort (text : Bytes) : Int := if text = [] then -1 else (portDigits 0 text).getD (-1)

/-- The host and the variable `port`, from what stands behind the user info. -/
def urlHost (text : Bytes) : Bytes × Int :=
  match text with
  | 91 :: rest =>
    match rest.dropWhile (· ≠ byte ']') with
    | [] => (text, -1)
    | _ :: behind =>
      (rest.takeWhile (· ≠ byte ']'), match behind with
        | 58 :: digits => urlPort digits
        | _ => -1)
  | _ =>
    match cutLast (byte ':') text with
    | some (host, digits) => (host, urlPort digits)
    | none => (text, -1)

/-- The port that `url.parse` takes for a scheme, in lower case. -/
def schemePort (scheme : Option Bytes) : Option Int :=
  if scheme = some (ascii "http") then some 80
  else if scheme = some (ascii "https") then some 443
  else none

/-- Path, query and fragment, from what stands behind the authority. -/
def urlTail (hasAuthority : Bool) (s : Bytes) : Bytes × Option Bytes × Option Bytes :=
  let path := s.takeWhile fun c => c ≠ byte '?' && c ≠ byte '#'
  let s := s.dropWhile fun c => c ≠ byte '?' && c ≠ byte '#'
  let (query, s) := match s with
    | 63 :: rest => (rest.takeWhile (· ≠ byte '#'), rest.dropWhile (· ≠ byte '#'))
    | _ => ([], s)
  let fragment := s.tail
  (if path ≠ [] then path else if hasAuthority then [byte '/'] else [],
    if query ≠ [] then some query else none, if fragment ≠ [] then some fragment else none)

/-- The user info, if there is one, and what stands behind it. -/
def urlUser (auth : Bytes) : Option Bytes × Bytes :=
  match cutLast (byte '@') auth with
  | some (user, text) => (some user, text)
  | none => (none, auth)

/-- The table, from the scheme in lower case and what stands behind its colon. -/
def urlTable (scheme : Option Bytes) (p : Bytes) : UrlTable :=
  match p with
  | 47 :: 47 :: p =>
    let auth := p.takeWhile inAuthority
    let (path, query, fragment) := urlTail true (p.dropWhile inAuthority)
    if auth = [] then ⟨scheme, none, none, none, path, query, fragment⟩
    else
      let (userinfo, text) := urlUser auth
      let (host, port) := urlHost text
      ⟨scheme, userinfo, some host, if 0 ≤ port then some port else schemePort scheme, path, query, fragment⟩
  | _ =>
    let (path, query, fragment) := urlTail false p
    ⟨scheme, none, none, none, path, query, fragment⟩

def urlParse (s : Bytes) : UrlTable :=
  let (scheme, p) := urlScheme s
  urlTable (scheme.map fun x => x.map toLower) p

/-- A port that is written, in `parse_fetch_url`. -/
def fetchPort (text : Bytes) : Except String Int :=
  if text = [] then .error "invalid URL port"
  else
    match portDigits 0 text with
    | none => .error "invalid URL port"
    | some port => if port ≤ 0 ∨ port > 65535 then .error "URL port out of range" else .ok port

/-- The port behind a host in brackets. -/
def bracketPort (port : Int) (behind : Bytes) : Except String Int :=
  match behind with
  | 58 :: digits => fetchPort digits
  | _ => .ok port

/-- The host and the port of an authority, with the port of the scheme. -/
def fetchHost (port : Int) (auth : Bytes) : Except String (Bytes × Int) :=
  match auth with
  | 91 :: rest =>
    match rest.dropWhile (· ≠ byte ']') with
    | [] => .error "invalid IPv6 host syntax"
    | _ :: behind => do
      let port ← bracketPort port behind
      return (rest.takeWhile (· ≠ byte ']'), port)
  | _ =>
    match cutLast (byte ':') auth with
    | some (host, digits) => do
      let port ← fetchPort digits
      return (host, port)
    | none => .ok (auth, port)

/-- A C string: it ends at its first zero byte. -/
def cString (s : Bytes) : Bytes := s.takeWhile (· ≠ 0)

theorem zero_not_mem_cString (s : Bytes) : (0 : UInt8) ∉ cString s := by
  intro h0
  simpa using List.mem_takeWhile_imp h0

/-- The target of the request, from what stands behind the authority. -/
def fetchTarget (s : Bytes) : Bytes :=
  let target := s.takeWhile (· ≠ byte '#')
  match target with
  | [] => [byte '/']
  | 47 :: _ => target
  | _ => byte '/' :: target

def schemeName (useTls : Bool) : Bytes := if useTls then ascii "https" else ascii "http"

def defaultPort (useTls : Bool) : Int := if useTls then 443 else 80

def fetchScheme (scheme : Bytes) : Except String Bool :=
  if scheme = ascii "http" then .ok false
  else if scheme = ascii "https" then .ok true
  else .error "unsupported URL scheme"

/-- `parse_fetch_url`, with `use_tls` and the rest of the result. -/
def parseFetchUrl (s : Bytes) : Except String (Bool × FetchUrl) :=
  match strstr s (ascii "://") with
  | none => .error "URL must include scheme (http:// or https://)"
  | some n => do
    let useTls ← fetchScheme (s.take n)
    let p := s.drop (n + 3)
    if p = [] then .error "URL host is empty"
    else
      let auth := p.takeWhile inAuthority
      if auth = [] then .error "URL host is empty"
      else
        let (host, port) ← fetchHost (defaultPort useTls) auth
        if host = [] then .error "URL host is empty"
        else
          return (useTls, ⟨cString host, port.toNat, cString (fetchTarget (p.dropWhile inAuthority)),
            zero_not_mem_cString _, zero_not_mem_cString _⟩)

/-! ## What the parts of an authority are -/

/-- `s` is cut into its scheme, its authority and the rest. -/
structure Cut (s : Bytes) (useTls : Bool) (auth rest : Bytes) : Prop where
  text : s = schemeName useTls ++ ascii "://" ++ (auth ++ rest)
  auth_ok : ∀ c ∈ auth, inAuthority c
  rest_ok : ∀ c ∈ rest.head?, inAuthority c = false

/-- The authority with a user info taken off. -/
def AfterUser (auth text : Bytes) : Prop :=
  byte '@' ∉ text ∧ (text = auth ∨ ∃ user, auth = user ++ byte '@' :: text)

/-- A text spells a host, in brackets or not, and a port behind a colon if there is one. -/
def Spells (text host : Bytes) (port : Option Bytes) : Prop :=
  (∀ p ∈ port, byte ':' ∉ p) ∧ ∃ front, text = front ++ port.elim [] (byte ':' :: ·) ∧
    (front = byte '[' :: (host ++ [byte ']']) ∧ byte ']' ∉ host ∨
      front = host ∧ host.head? ≠ some (byte '[') ∧ (port = none → byte ':' ∉ host))

/-- The digits of a number. -/
structure Decimal (digits : Bytes) (n : Nat) : Prop where
  nonempty : digits ≠ []
  digit : ∀ c ∈ digits, isDigit c
  value : Double.natOf digits = n

/-- Both parsers read the same scheme, host and port, and these are the ones that are written. -/
structure ParsedAlike (s : Bytes) (useTls : Bool) (url : FetchUrl) : Prop where
  scheme : (urlParse s).scheme = some (schemeName useTls)
  host : (urlParse s).host = some url.host
  port : (urlParse s).port = some (url.port : Int)
  range : 1 ≤ url.port ∧ url.port ≤ 65535
  written : ∃ auth rest text port, Cut s useTls auth rest ∧ AfterUser auth text ∧
    Spells text url.host port ∧ (port = none → url.port = defaultPort useTls) ∧
      ∀ p ∈ port, Decimal p url.port

/-- What stands in front of the `@` reads as the same host and port: it begins with the host in
brackets, or with the host and a zero byte. -/
def NamedTwice (useTls : Bool) (auth host : Bytes) (port : Option Bytes) : Prop :=
  match auth with
  | 91 :: a => a.takeWhile (fun c => c ≠ byte ']' && c ≠ 0) = host ∧
      ∀ p ∈ port, (Double.natOf p : Int) = defaultPort useTls ∨
        a.dropWhile (· ≠ byte ']') = byte ']' :: byte ':' :: p
  | _ => cString auth = host

/-- An authority that both parsers read as it is written. -/
def ClearAuthority (useTls : Bool) (auth : Bytes) : Prop :=
  ∃ text host port, AfterUser auth text ∧ Spells text host port ∧ (0 : UInt8) ∉ host ∧
    (∀ p ∈ port, ∃ n ≤ 65535, Decimal p n) ∧
      (byte '@' ∉ auth ∨ NamedTwice useTls auth host port)

section Cuts

variable {c : UInt8} {s a b : Bytes}

theorem cutLast_none : cutLast c s = none ↔ c ∉ s := by
  induction s with
  | nil => simp [cutLast]
  | cons d s ih =>
    rw [cutLast]
    cases h : cutLast c s with
    | some ab =>
      have hin : ¬ c ∉ s := fun hn => by rw [ih.mpr hn] at h; cases h
      simp [not_not.mp hin]
    | none =>
      have hin := ih.mp h
      by_cases hd : d = c
      · simp [hd]
      · have hne : c ≠ d := fun he => hd he.symm
        simp [hd, hne, hin]

theorem cutLast_spec (h : cutLast c s = some (a, b)) : s = a ++ c :: b ∧ c ∉ b := by
  induction s generalizing a with
  | nil => cases h
  | cons d s ih =>
    rw [cutLast] at h
    cases hs : cutLast c s with
    | some ab =>
      rw [hs] at h
      obtain ⟨x, y⟩ := ab
      obtain ⟨rfl, rfl⟩ : d :: x = a ∧ y = b := by simpa using h
      obtain ⟨rfl, hb⟩ := ih hs
      exact ⟨rfl, hb⟩
    | none =>
      rw [hs] at h
      dsimp only at h
      split_ifs at h with hd
      obtain ⟨rfl, rfl⟩ : [] = a ∧ s = b := by simpa using h
      exact ⟨by rw [hd]; rfl, cutLast_none.mp hs⟩

/-- What stands behind the last `c` is one text only. -/
theorem cut_unique {a' b' : Bytes} (h : a ++ c :: b = a' ++ c :: b') (hb : c ∉ b) (hb' : c ∉ b') :
    a = a' ∧ b = b' := by
  induction a generalizing a' with
  | nil =>
    cases a' with
    | nil => exact ⟨rfl, (List.cons.inj h).2⟩
    | cons d a' =>
      have hmem : c ∈ b := by rw [(List.cons.inj h).2]; simp
      exact absurd hmem hb
  | cons d a ih =>
    cases a' with
    | nil =>
      have hmem : c ∈ b' := by rw [← (List.cons.inj h).2]; simp
      exact absurd hmem hb'
    | cons d' a' =>
      obtain ⟨rfl, htail⟩ := List.cons.inj h
      obtain ⟨rfl, rfl⟩ := ih htail
      exact ⟨rfl, rfl⟩

theorem cutLast_eq (hb : c ∉ b) : cutLast c (a ++ c :: b) = some (a, b) := by
  cases h : cutLast c (a ++ c :: b) with
  | none =>
    have hn := cutLast_none.mp h
    simp at hn
  | some xy =>
    obtain ⟨x, y⟩ := xy
    obtain ⟨heq, hy⟩ := cutLast_spec h
    obtain ⟨rfl, rfl⟩ := cut_unique heq hb hy
    rfl

/-- The text up to the first `c`, and the rest from there. -/
theorem span_stop (ha : c ∉ a) :
    (a ++ c :: b).takeWhile (· ≠ c) = a ∧ (a ++ c :: b).dropWhile (· ≠ c) = c :: b := by
  have hall : ∀ d ∈ a, decide (d ≠ c) = true := by
    intro d hd
    have hne : d ≠ c := fun he => ha (he ▸ hd)
    simpa using hne
  rw [List.takeWhile_append_of_pos hall, List.dropWhile_append_of_pos hall]
  simp

end Cuts

section Ports

variable {p : Bytes} {port v : Int} {n : Nat}

theorem wrap_of_small (h : n ≤ 65535) : wrap n = n := (wrap_eq_iff (by omega)).mpr (by omega)

theorem natOf_cons (c : UInt8) (p : Bytes) :
    Double.natOf (c :: p) = (c.toNat - 48) * 10 ^ p.length + Double.natOf p := by
  have hone : Double.natOf [c] = c.toNat - 48 := by simp [Double.natOf]
  rw [← hone, ← Double.natOf_append, List.singleton_append]

/-- The loop over the digits computes their value, wrapped. -/
theorem portDigits_eq (hp : ∀ c ∈ p, isDigit c) (hv : wrap v = v) :
    portDigits v p = some (wrap (v * 10 ^ p.length + Double.natOf p)) := by
  induction p generalizing v with
  | nil => simp [portDigits, Double.natOf, hv]
  | cons c p ih =>
    obtain ⟨hc, hp⟩ := List.forall_mem_cons.mp hp
    rw [portDigits, if_pos hc, ih hp (wrap_wrap _), wrap_mul_add, natOf_cons, List.length_cons]
    congr 2
    push_cast
    ring

theorem portDigits_digits (h : portDigits v p = some port) : ∀ c ∈ p, isDigit c := by
  induction p generalizing v with
  | nil => simp
  | cons c p ih =>
    rw [portDigits] at h
    split_ifs at h with hc
    exact List.forall_mem_cons.mpr ⟨hc, ih h⟩

theorem portDigits_zero (hp : ∀ c ∈ p, isDigit c) : portDigits 0 p = some (wrap (Double.natOf p)) := by
  rw [portDigits_eq hp rfl, Int.zero_mul, Int.zero_add]

theorem fetchPort_ok (h : fetchPort p = .ok port) :
    p ≠ [] ∧ (∀ c ∈ p, isDigit c) ∧ portDigits 0 p = some port ∧ 1 ≤ port ∧ port ≤ 65535 := by
  unfold fetchPort at h
  split_ifs at h with hp
  split at h
  · cases h
  next v hv =>
    split_ifs at h with hrange
    cases h
    exact ⟨hp, portDigits_digits hv, hv, by omega, by omega⟩

theorem Decimal.portDigits_eq (hd : Decimal p n) (hn : n ≤ 65535) : portDigits 0 p = some (n : Int) := by
  rw [portDigits_zero hd.digit, hd.value, wrap_of_small hn]

theorem fetchPort_value (hdec : ∃ n ≤ 65535, Decimal p n) (h : fetchPort p = .ok v) : v = Double.natOf p := by
  obtain ⟨n, hn, hd⟩ := hdec
  have hdigits := (fetchPort_ok h).2.2.1
  rw [hd.portDigits_eq hn] at hdigits
  rw [hd.value, Option.some.inj hdigits]

theorem Decimal.urlPort_eq (hd : Decimal p n) (hn : n ≤ 65535) : urlPort p = n := by
  rw [urlPort, if_neg hd.nonempty, hd.portDigits_eq hn]
  rfl

end Ports

section Hosts

variable {auth text host rest : Bytes} {port : Option Bytes} {d v : Int}

theorem AfterUser.eq (h : AfterUser auth text) : (urlUser auth).2 = text := by
  unfold urlUser
  obtain ⟨htext, rfl | ⟨user, rfl⟩⟩ := h
  · rw [cutLast_none.mpr htext]
  · rw [cutLast_eq htext]

theorem text_bracketed (host : Bytes) (port : Option Bytes) :
    byte '[' :: (host ++ [byte ']']) ++ port.elim [] (byte ':' :: ·) =
      91 :: (host ++ byte ']' :: port.elim [] (byte ':' :: ·)) := by simp

theorem text_plain (h : host.head? ≠ some (byte '[')) (tail : Bytes) :
    host ++ port.elim [] (byte ':' :: ·) ≠ 91 :: tail := by
  intro he
  cases host with
  | nil =>
    cases port with
    | none => cases he
    | some p => exact absurd (List.cons.inj he).1 (by decide)
  | cons c host => exact h (congrArg some (List.cons.inj he).1)

/-- `url.parse` reads a host and a port as they are spelled. -/
theorem Spells.urlHost_eq (h : Spells text host port) : urlHost text = (host, port.elim (-1) urlPort) := by
  obtain ⟨hport, front, rfl, ⟨rfl, hhost⟩ | ⟨rfl, hhead, hnone⟩⟩ := h
  · obtain ⟨htake, hdrop⟩ := span_stop (b := port.elim [] (byte ':' :: ·)) hhost
    rw [text_bracketed, urlHost, hdrop, htake]
    cases port with
    | none => rfl
    | some p => rfl
  · unfold urlHost
    split
    next tail he => exact absurd he (text_plain hhead tail)
    next =>
      cases port with
      | none =>
        rw [Option.elim_none, List.append_nil, cutLast_none.mpr (hnone rfl)]
        rfl
      | some p =>
        rw [Option.elim_some, cutLast_eq (hport p rfl)]
        rfl

/-- `parse_fetch_url` does so too where no user info stands in front. -/
theorem Spells.fetchHost_eq (h : Spells text host port) :
    fetchHost d text = (port.elim (.ok d) fetchPort).map (host, ·) := by
  obtain ⟨hport, front, rfl, ⟨rfl, hhost⟩ | ⟨rfl, hhead, hnone⟩⟩ := h
  · obtain ⟨htake, hdrop⟩ := span_stop (b := port.elim [] (byte ':' :: ·)) hhost
    rw [text_bracketed, fetchHost, hdrop, htake]
    cases port with
    | none => rfl
    | some p => rfl
  · unfold fetchHost
    split
    next tail he => exact absurd he (text_plain hhead tail)
    next =>
      cases port with
      | none =>
        rw [Option.elim_none, List.append_nil, cutLast_none.mpr (hnone rfl)]
        rfl
      | some p =>
        rw [Option.elim_some, cutLast_eq (hport p rfl)]
        rfl

theorem Spells.mem_text (h : Spells text host port) {c : UInt8} (hc : c ∈ host) : c ∈ text := by
  obtain ⟨-, front, rfl, ⟨rfl, -⟩ | ⟨rfl, -⟩⟩ := h
  · simp [hc]
  · simp [hc]

/-- How `parse_fetch_url` reads a host in brackets. -/
structure Bracketed (d : Int) (auth host : Bytes) (v : Int) (behind : Bytes) : Prop where
  text : auth = byte '[' :: (host ++ byte ']' :: behind)
  host_ok : byte ']' ∉ host
  port : (∃ p, behind = byte ':' :: p ∧ fetchPort p = .ok v) ∨ behind.head? ≠ some (byte ':') ∧ v = d

/-- How it reads a host without. -/
structure Plain (d : Int) (auth host : Bytes) (v : Int) : Prop where
  head : auth.head? ≠ some (byte '[')
  port : (∃ p, auth = host ++ byte ':' :: p ∧ byte ':' ∉ p ∧ fetchPort p = .ok v) ∨
    byte ':' ∉ auth ∧ auth = host ∧ v = d

theorem bind_ok {α β : Type} {r : Except String α} {f : α → Except String β} {b : β}
    (h : (r >>= f) = .ok b) : ∃ a, r = .ok a ∧ f a = .ok b := by
  cases r with
  | error message => cases h
  | ok a => exact ⟨a, rfl, h⟩

theorem fetchHost_ok (h : fetchHost d auth = .ok (host, v)) :
    (∃ behind, Bracketed d auth host v behind) ∨ Plain d auth host v := by
  unfold fetchHost at h
  split at h
  next rest =>
    left
    have hrest := List.takeWhile_append_dropWhile (p := fun c => decide (c ≠ byte ']')) (l := rest)
    split at h
    next => cases h
    next c behind hdrop =>
      obtain ⟨port, hport, hret⟩ := bind_ok h
      obtain ⟨rfl, rfl⟩ := Prod.mk.inj (Except.ok.inj hret)
      have hc : c = byte ']' := by
        have hhead := List.head?_dropWhile_not (fun c => decide (c ≠ byte ']')) rest
        rw [hdrop] at hhead
        simpa using hhead
      rw [hdrop, hc] at hrest
      refine ⟨behind, congrArg (91 :: ·) hrest.symm, fun hin => ?_, ?_⟩
      · simpa using List.mem_takeWhile_imp hin
      · unfold bracketPort at hport
        split at hport
        next digits => exact .inl ⟨digits, rfl, hport⟩
        next hbehind =>
          refine .inr ⟨fun hhead => ?_, (Except.ok.inj hport).symm⟩
          obtain ⟨p, rfl⟩ := List.head?_eq_some_iff.mp hhead
          exact hbehind p rfl
  next hbrace =>
    right
    have hhead : auth.head? ≠ some (byte '[') := by
      intro he
      obtain ⟨tail, rfl⟩ := List.head?_eq_some_iff.mp he
      exact hbrace tail rfl
    split at h
    next x digits hcut =>
      obtain ⟨port, hport, hret⟩ := bind_ok h
      obtain ⟨rfl, rfl⟩ := Prod.mk.inj (Except.ok.inj hret)
      obtain ⟨hauth, hdigits⟩ := cutLast_spec hcut
      exact ⟨hhead, .inl ⟨digits, hauth, hdigits, hport⟩⟩
    next hcut =>
      obtain ⟨rfl, rfl⟩ := Prod.mk.inj (Except.ok.inj h)
      exact ⟨hhead, .inr ⟨cutLast_none.mp hcut, rfl, rfl⟩⟩

end Hosts

section Fetch

variable {s auth rest : Bytes} {useTls : Bool} {url : FetchUrl}

theorem Cut.span (h : Cut s useTls auth rest) :
    (auth ++ rest).takeWhile inAuthority = auth ∧ (auth ++ rest).dropWhile inAuthority = rest := by
  rw [List.takeWhile_append_of_pos h.auth_ok, List.dropWhile_append_of_pos h.auth_ok]
  have hrest := h.rest_ok
  cases rest with
  | nil => simp
  | cons c rest =>
    have hc : ¬ inAuthority c = true := by simp [hrest c rfl]
    rw [List.takeWhile_cons_of_neg hc, List.dropWhile_cons_of_neg hc, List.append_nil]
    exact ⟨rfl, rfl⟩

theorem Cut.unique {auth' rest' : Bytes} (h : Cut s useTls auth rest) (h' : Cut s useTls auth' rest') :
    auth = auth' := by
  have htext := h.text.symm.trans h'.text
  rw [← h.span.1, ← h'.span.1, List.append_cancel_left htext]

/-- What `parse_fetch_url` reads of a text that it accepts. -/
theorem parseFetchUrl_ok (h : parseFetchUrl s = .ok (useTls, url)) :
    ∃ auth rest host port, Cut s useTls auth rest ∧ auth ≠ [] ∧
      fetchHost (defaultPort useTls) auth = .ok (host, port) ∧
        url.host = cString host ∧ url.port = port.toNat := by
  unfold parseFetchUrl at h
  split at h
  next => cases h
  next n hn =>
    obtain ⟨tls, htls, h⟩ := bind_ok h
    dsimp only at h
    split_ifs at h with hp hauth
    obtain ⟨⟨host, port⟩, hhost, h⟩ := bind_ok h
    dsimp only at h
    split_ifs at h with hempty
    obtain ⟨rfl, rfl⟩ := Prod.mk.inj (Except.ok.inj h)
    have hscheme : s.take n = schemeName tls := by
      unfold fetchScheme at htls
      split_ifs at htls with hhttp hhttps
      · cases htls
        exact hhttp
      · cases htls
        exact hhttps
    refine ⟨_, (s.drop (n + 3)).dropWhile inAuthority, host, port, ⟨?_, ?_, ?_⟩, hauth, hhost, rfl, rfl⟩
    · rw [List.takeWhile_append_dropWhile, ← hscheme, List.append_assoc]
      exact strstr_split hn
    · intro c hc
      exact List.mem_takeWhile_imp hc
    · intro c hc
      have := List.head?_dropWhile_not inAuthority (s.drop (n + 3))
      rw [hc] at this
      simpa using this

/-- What `url.parse` makes of a text that is cut. -/
theorem urlParse_cut (h : Cut s useTls auth rest) (hauth : auth ≠ []) :
    (urlParse s).scheme = some (schemeName useTls) ∧
      ∀ text, AfterUser auth text → (urlParse s).host = some (urlHost text).1 ∧
        (urlParse s).port = if 0 ≤ (urlHost text).2 then some (urlHost text).2 else some (defaultPort useTls) := by
  obtain ⟨htake, hdrop⟩ := h.span
  have hscheme : urlScheme s = (some (schemeName useTls), 47 :: 47 :: (auth ++ rest)) := by
    rw [h.text]
    cases useTls <;> rfl
  have hlower : (schemeName useTls).map toLower = schemeName useTls := by
    cases useTls <;> decide
  have hport : schemePort (some (schemeName useTls)) = some (defaultPort useTls) := by
    cases useTls <;> decide
  have htable : urlParse s = urlTable (some (schemeName useTls)) (47 :: 47 :: (auth ++ rest)) := by
    rw [urlParse, hscheme, ← hlower]
    simp [hlower]
  rw [htable, urlTable, htake]
  dsimp only
  rw [if_neg hauth, hport]
  refine ⟨rfl, fun text htext => ?_⟩
  rw [← htext.eq]
  exact ⟨rfl, rfl⟩

theorem cString_of_free {s : Bytes} (h0 : (0 : UInt8) ∉ s) : cString s = s := by
  refine List.takeWhile_eq_self_iff.mpr fun c hc => ?_
  have hne : c ≠ 0 := fun he => h0 (he ▸ hc)
  simpa using hne

/-- Digits hold no character of the syntax. -/
theorem digits_free {p : Bytes} (hp : ∀ c ∈ p, isDigit c) {c : UInt8} (hc : isDigit c = false) : c ∉ p := by
  intro hin
  rw [hp c hin] at hc
  cases hc

theorem getLast?_cons_concat (a w : Bytes) (c d : UInt8) : (a ++ c :: (w ++ [d])).getLast? = some d := by
  rw [← List.cons_append, ← List.append_assoc, List.getLast?_concat]

/-- A written port is what stands behind the last colon. -/
theorem Spells.port_unique {text host front p : Bytes} {port : Option Bytes} (htext : AfterUser auth text)
    (h : Spells text host port) (hauth : auth = front ++ byte ':' :: p) (hp : ∀ c ∈ p, isDigit c)
    (hne : p ≠ []) : port = some p := by
  have hcolon := digits_free hp (c := byte ':') rfl
  obtain ⟨hport, x, rfl, hx⟩ := h
  obtain ⟨hat, huser⟩ := htext
  cases port with
  | some q =>
    have hq : ∃ y, auth = y ++ byte ':' :: q := by
      rcases huser with heq | ⟨user, heq⟩
      · exact ⟨x, heq.symm⟩
      · exact ⟨user ++ byte '@' :: x, by rw [heq]; simp⟩
    obtain ⟨y, hy⟩ := hq
    rw [(cut_unique (hy.symm.trans hauth) (hport q rfl) hcolon).2]
  | none =>
    exfalso
    -- the digits are the end of the text, which has no colon or ends with a bracket
    rw [Option.elim_none, List.append_nil] at hat huser
    have hend : ∃ y, auth = y ++ x ∧ (y = [] ∨ ∃ z, y = z ++ [byte '@']) := by
      rcases huser with rfl | ⟨user, rfl⟩
      · exact ⟨[], rfl, .inl rfl⟩
      · exact ⟨user ++ [byte '@'], by simp, .inr ⟨user, rfl⟩⟩
    obtain ⟨y, rfl, hy⟩ := hend
    rcases hx with ⟨rfl, -⟩ | ⟨rfl, -, hnone⟩
    · obtain ⟨p, c, rfl⟩ := (List.eq_nil_or_concat' p).resolve_left hne
      have hlast := congrArg List.getLast? hauth
      rw [getLast?_cons_concat, getLast?_cons_concat] at hlast
      refine digits_free hp (c := byte ']') rfl ?_
      rw [Option.some.inj hlast]
      simp
    · rcases List.append_eq_append_iff.mp hauth with ⟨w, -, rfl⟩ | ⟨w, rfl, hw⟩
      · exact hnone rfl (by simp)
      · cases w with
        | nil => exact hnone rfl (by rw [← List.nil_append x, ← hw]; simp)
        | cons c w =>
          obtain ⟨rfl, rfl⟩ := List.cons.inj hw
          rcases hy with hy | ⟨z, hz⟩
          · simp at hy
          · have hlast := congrArg List.getLast? hz
            rw [List.getLast?_concat] at hlast
            rcases List.eq_nil_or_concat' w with rfl | ⟨w, c, rfl⟩
            · rw [List.getLast?_concat] at hlast
              exact absurd (Option.some.inj hlast) (by decide)
            · rw [getLast?_cons_concat] at hlast
              refine digits_free hp (c := byte '@') rfl ?_
              rw [Option.some.inj hlast]
              simp

theorem cString_append_of_mem {a : Bytes} (h0 : (0 : UInt8) ∈ a) (b : Bytes) : cString (a ++ b) = cString a := by
  induction a with
  | nil => cases h0
  | cons c a ih =>
    by_cases hc : c = 0
    · subst hc
      rfl
    · have hin : (0 : UInt8) ∈ a := (List.mem_cons.mp h0).resolve_left fun he => hc he.symm
      simpa [cString, hc] using ih hin

theorem cString_bracketed {a : Bytes} (ha : byte ']' ∉ a) (b : Bytes) :
    (a ++ byte ']' :: b).takeWhile (fun c => c ≠ byte ']' && c ≠ 0) = cString a := by
  induction a with
  | nil => rfl
  | cons c a ih =>
    obtain ⟨hc, ha⟩ := not_or.mp (fun h => ha (List.mem_cons.mpr h))
    have hne : c ≠ byte ']' := fun he => hc he.symm
    by_cases h0 : c = 0
    · subst h0
      rfl
    · rw [List.cons_append, List.takeWhile_cons_of_pos (by rw [Bool.and_eq_true]; exact ⟨decide_eq_true hne, decide_eq_true h0⟩), ih ha, cString, cString,
        List.takeWhile_cons_of_pos (by simpa using h0)]

theorem namedTwice_bracketed {host behind : Bytes} {port : Option Bytes} (hb : byte ']' ∉ auth) :
    NamedTwice useTls (91 :: (auth ++ byte ']' :: behind)) host port ↔ cString auth = host ∧
      ∀ p ∈ port, (Double.natOf p : Int) = defaultPort useTls ∨ behind = byte ':' :: p := by
  rw [NamedTwice, cString_bracketed hb, (span_stop hb).2]
  simp

theorem namedTwice_plain {host : Bytes} {port : Option Bytes} (h : auth.head? ≠ some (byte '[')) :
    NamedTwice useTls auth host port ↔ cString auth = host := by
  unfold NamedTwice
  split
  next a => exact absurd rfl h
  next => exact Iff.rfl

/-- With a user info, the host that is read is the text up to a zero byte. -/
theorem Plain.cString_eq {host front : Bytes} {d v : Int} (h : Plain d auth front v)
    (hat : byte '@' ∈ auth) (hhost : byte '@' ∉ host) : cString auth = host ↔ cString front = host := by
  rcases h.port with ⟨p, hauth, -, hfetch⟩ | ⟨-, rfl, -⟩
  · obtain ⟨-, hp, -⟩ := fetchPort_ok hfetch
    have hfront : byte '@' ∈ front := by
      rw [hauth] at hat
      rcases List.mem_append.mp hat with hin | hin
      · exact hin
      · rcases List.mem_cons.mp hin with he | hin
        · exact absurd he (by decide)
        · exact absurd hin (digits_free hp rfl)
    by_cases h0 : (0 : UInt8) ∈ front
    · rw [hauth, cString_append_of_mem h0]
    · have hfree := cString_of_free h0
      constructor
      · rintro rfl
        refine absurd ?_ hhost
        have hall : ∀ c ∈ front, decide (c ≠ 0) = true := fun c hc => by
          have hne : c ≠ 0 := fun he => h0 (he ▸ hc)
          simpa using hne
        rw [hauth, cString, List.takeWhile_append_of_pos hall]
        exact List.mem_append_left _ hfront
      · rintro rfl
        rw [hfree] at hhost
        exact absurd hfront hhost
  · exact Iff.rfl

theorem Spells.fetched_port {text host front p : Bytes} {port : Option Bytes} {v : Int}
    (h : Spells text host port) (htext : AfterUser auth text) (hauth : auth = front ++ byte ':' :: p)
    (hp : fetchPort p = .ok v) : port = some p := by
  obtain ⟨hne, hdigits, -⟩ := fetchPort_ok hp
  exact h.port_unique htext hauth hdigits hne

theorem Spells.colon_mem {text host p : Bytes} (h : Spells text host (some p)) (htext : AfterUser auth text) :
    byte ':' ∈ auth := by
  obtain ⟨-, front, rfl, -⟩ := h
  obtain ⟨-, rfl | ⟨user, rfl⟩⟩ := htext
  · simp
  · simp

theorem port_range {front : Bytes} {v : Int} (h : fetchHost (defaultPort useTls) auth = .ok (front, v)) :
    1 ≤ v ∧ v ≤ 65535 := by
  have hdefault : 1 ≤ defaultPort useTls ∧ defaultPort useTls ≤ 65535 := by
    cases useTls <;> decide
  rcases fetchHost_ok h with ⟨behind, h⟩ | h
  · rcases h.port with ⟨p, -, hp⟩ | ⟨-, rfl⟩
    · exact (fetchPort_ok hp).2.2.2
    · exact hdefault
  · rcases h.port with ⟨p, -, -, hp⟩ | ⟨-, -, rfl⟩
    · exact (fetchPort_ok hp).2.2.2
    · exact hdefault

/-- With a user info, the host and the port that `parse_fetch_url` reads are the written ones just
when the text in front names them too. -/
theorem namedTwice_iff {text host front : Bytes} {port : Option Bytes} {v : Int}
    (htext : AfterUser auth text) (hspells : Spells text host port) (hat : byte '@' ∈ auth)
    (hdec : ∀ p ∈ port, ∃ n ≤ 65535, Decimal p n)
    (h : fetchHost (defaultPort useTls) auth = .ok (front, v)) :
    NamedTwice useTls auth host port ↔ cString front = host ∧
      (port = none → v = defaultPort useTls) ∧ ∀ p ∈ port, v = Double.natOf p := by
  rcases fetchHost_ok h with ⟨behind, hb⟩ | hp
  · rw [hb.text, show byte '[' = 91 from rfl, namedTwice_bracketed hb.host_ok]
    refine and_congr_right fun _ => ?_
    rcases hb.port with ⟨p, rfl, hv⟩ | ⟨hhead, rfl⟩
    · have hauth : auth = byte '[' :: (front ++ [byte ']']) ++ byte ':' :: p := by
        rw [hb.text]
        simp
      obtain rfl := hspells.fetched_port htext hauth hv
      refine iff_of_true (fun q hq => .inr ?_) ⟨(nomatch ·), fun q hq => ?_⟩
      · rw [Option.some.inj hq]
      · obtain rfl := Option.some.inj hq
        exact fetchPort_value (hdec _ rfl) hv
    · refine ⟨fun hall => ⟨fun _ => rfl, fun p hp => ?_⟩, fun hall p hp => .inl (hall.2 p hp).symm⟩
      rcases hall p hp with hd | hbehind
      · exact hd.symm
      · exact absurd (by rw [hbehind]; rfl) hhead
  · have hhost : byte '@' ∉ host := fun hin => htext.1 (hspells.mem_text hin)
    rw [namedTwice_plain hp.head, hp.cString_eq hat hhost]
    refine (and_iff_left ?_).symm
    rcases hp.port with ⟨p, hauth, -, hv⟩ | ⟨hcolon, -, rfl⟩
    · obtain rfl := hspells.fetched_port htext hauth hv
      refine ⟨(nomatch ·), fun q hq => ?_⟩
      obtain rfl := Option.some.inj hq
      exact fetchPort_value (hdec _ rfl) hv
    · refine ⟨fun _ => rfl, fun p hp => ?_⟩
      obtain rfl := hp
      exact absurd (hspells.colon_mem htext) hcolon

/-- The same without a user info, where nothing can be named twice. -/
theorem fetchHost_spelled {host front : Bytes} {port : Option Bytes} {v : Int}
    (hspells : Spells auth host port) (hdec : ∀ p ∈ port, ∃ n ≤ 65535, Decimal p n)
    (h : fetchHost (defaultPort useTls) auth = .ok (front, v)) :
    front = host ∧ (port = none → v = defaultPort useTls) ∧ ∀ p ∈ port, v = Double.natOf p := by
  rw [hspells.fetchHost_eq] at h
  cases port with
  | none =>
    obtain ⟨rfl, rfl⟩ := Prod.mk.inj (Except.ok.inj h)
    exact ⟨rfl, fun _ => rfl, fun p hp => nomatch hp⟩
  | some p =>
    rw [Option.elim_some] at h
    cases hv : fetchPort p with
    | error message => rw [hv] at h; cases h
    | ok port =>
      rw [hv] at h
      obtain ⟨rfl, rfl⟩ := Prod.mk.inj (Except.ok.inj h)
      refine ⟨rfl, (nomatch ·), fun q hq => ?_⟩
      obtain rfl := Option.some.inj hq
      exact fetchPort_value (hdec _ rfl) hv

/-- The parsers agree on an accepted text, and with what is written in it, just when its authority
is clear. -/
theorem parsedAlike_iff (h : parseFetchUrl s = .ok (useTls, url)) :
    ParsedAlike s useTls url ↔ ∃ auth rest, Cut s useTls auth rest ∧ ClearAuthority useTls auth := by
  obtain ⟨auth, rest, front, v, hcut, hauth, hfetch, hhost, hport⟩ := parseFetchUrl_ok h
  have hrange := port_range hfetch
  constructor
  · intro hp
    obtain ⟨auth', rest', text, port, hcut', htext, hspells, hnone, hsome⟩ := hp.written
    obtain rfl := hcut.unique hcut'
    have hdec : ∀ p ∈ port, ∃ n ≤ 65535, Decimal p n := fun p hin => ⟨url.port, hp.range.2, hsome p hin⟩
    refine ⟨auth, rest, hcut, text, url.host, port, htext, hspells, url.host_ok, hdec, ?_⟩
    by_cases hat : byte '@' ∈ auth
    · refine .inr ((namedTwice_iff htext hspells hat hdec hfetch).mpr ⟨hhost.symm, fun hn => ?_, fun p hin => ?_⟩)
      · have hdefault := hnone hn
        omega
      · have hvalue := (hsome p hin).value
        omega
    · exact .inl hat
  · rintro ⟨auth', rest', hcut', text, host, port, htext, hspells, h0, hdec, hclear⟩
    obtain rfl := hcut.unique hcut'
    obtain ⟨hscheme, hparse⟩ := urlParse_cut hcut hauth
    have hread : cString front = host ∧ (port = none → v = defaultPort useTls) ∧
        ∀ p ∈ port, v = Double.natOf p := by
      by_cases hat : byte '@' ∈ auth
      · exact (namedTwice_iff htext hspells hat hdec hfetch).mp (hclear.resolve_left (absurd hat))
      · have hsame : text = auth := htext.2.resolve_right fun ⟨user, hu⟩ => hat (by rw [hu]; simp)
        obtain ⟨rfl, hrest⟩ := fetchHost_spelled (hsame ▸ hspells) hdec hfetch
        exact ⟨cString_of_free h0, hrest⟩
    obtain ⟨hfront, hnone, hsome⟩ := hread
    obtain ⟨hurl, hurlport⟩ := hparse text htext
    rw [hspells.urlHost_eq] at hurl hurlport
    rw [hfront] at hhost
    refine ⟨hscheme, by rw [hurl, hhost], ?_, by omega, auth, rest, text, port, hcut, htext, hhost ▸ hspells,
      fun hn => by rw [hport, hnone hn]; cases useTls <;> rfl, fun p hin => ?_⟩
    · rw [hurlport, hport, Int.toNat_of_nonneg (by omega)]
      cases port with
      | none =>
        rw [hnone rfl]
        rfl
      | some p =>
        obtain ⟨n, hn, hd⟩ := hdec p rfl
        have hv := hsome p rfl
        rw [hd.value] at hv
        rw [Option.elim_some, hd.urlPort_eq hn, if_pos (by omega), hv]
    · obtain ⟨n, hn, hd⟩ := hdec p hin
      have hv := hsome p hin
      rw [hd.value] at hv
      rwa [hport, hv]

end Fetch

deriving instance DecidableEq for FetchUrl

theorem parsedAlike_plain : ∃ url, parseFetchUrl (ascii "http://h:81/") = .ok (false, url) ∧
    ParsedAlike (ascii "http://h:81/") false url := by
  have hparse : parseFetchUrl (ascii "http://h:81/") =
      .ok (false, ⟨ascii "h", 81, ascii "/", by decide, by decide⟩) := by
    decide +kernel
  have hcolon : byte ':' ∉ ascii "81" := by decide
  refine ⟨_, hparse, (parsedAlike_iff hparse).mpr ⟨ascii "h:81", ascii "/", ⟨rfl, by decide +kernel,
    by decide +kernel⟩, ascii "h:81", ascii "h", some (ascii "81"), ⟨by decide +kernel, .inl rfl⟩, ⟨?_, ?_⟩,
    by decide, ?_, .inl (by decide)⟩⟩
  · intro p hp
    rwa [← Option.some.inj hp]
  · exact ⟨ascii "h", rfl, .inr ⟨rfl, by decide, by decide⟩⟩
  · intro p hp
    obtain rfl := Option.some.inj hp
    exact ⟨81, by decide, by decide +kernel, by decide +kernel, by decide +kernel⟩

/-- `parse_fetch_url` takes `u@h` for a host. -/
theorem parsedAlike_false : ∃ url, parseFetchUrl (ascii "http://u@h") = .ok (false, url) ∧
    ¬ParsedAlike (ascii "http://u@h") false url := by
  refine ⟨⟨ascii "u@h", 80, ascii "/", by decide, by decide⟩, by decide, fun h => ?_⟩
  exact absurd h.host (by decide)

end ToiLang.Url
