import ToiLang.Strings.Search

namespace ToiLang.Http

/-! What `upsert_response_header` does to a response: one header of the name, everything else as it
stood. -/

/-- A response with an empty line behind its headers: no line break is in a line, and no header is
empty. -/
structure RawResponse where
  statusLine : Bytes
  headers : List Bytes
  body : Bytes
  statusLine_free : findCrlf statusLine = none
  headers_lines : ∀ l ∈ headers, HeadLine l

namespace RawResponse

def bytes (r : RawResponse) : Bytes := r.statusLine ++ 13 :: 10 :: (joinLines r.headers ++ 13 :: 10 :: r.body)

/-- The head, without the line breaks behind its last line. -/
def head (r : RawResponse) : Bytes := joined r.statusLine r.headers

theorem bytes_eq (r : RawResponse) : r.bytes = r.head ++ 13 :: 10 :: 13 :: 10 :: r.body :=
  (joined_crlf _ _ _).symm

theorem indexOf_bytes (r : RawResponse) : indexOf (crlf ++ crlf) r.bytes = some r.head.length := by
  rw [bytes_eq]
  exact indexOf_blank r.statusLine_free r.headers_lines r.body

end RawResponse

theorem joined_inj {line line' : Bytes} {ls ls' : List Bytes} (hline : findCrlf line = none)
    (hline' : findCrlf line' = none) (hls : ∀ l ∈ ls, HeadLine l) (hls' : ∀ l ∈ ls', HeadLine l)
    (h : joined line ls = joined line' ls') : line = line' ∧ ls = ls' := by
  induction ls generalizing line line' ls' with
  | nil =>
    cases ls' with
    | nil => exact ⟨h, rfl⟩
    | cons l' ls' =>
      have hat := indexOf_crlf hline' (joined l' ls')
      have hnone := indexOf_crlf_none hline
      change line = line' ++ crlf ++ joined l' ls' at h
      rw [h, hat] at hnone
      cases hnone
  | cons l ls ih =>
    have hat := indexOf_crlf hline (joined l ls)
    cases ls' with
    | nil =>
      have hnone := indexOf_crlf_none hline'
      change line ++ crlf ++ joined l ls = line' at h
      rw [← h, hat] at hnone
      cases hnone
    | cons l' ls' =>
      have hat' := indexOf_crlf hline' (joined l' ls')
      change line ++ crlf ++ joined l ls = line' ++ crlf ++ joined l' ls' at h
      rw [h, hat'] at hat
      have hlen : line.length = line'.length := (Option.some.inj hat).symm
      rw [List.append_assoc, List.append_assoc] at h
      obtain ⟨hfirst, hrest⟩ := List.append_inj h hlen
      have hrest := List.append_cancel_left hrest
      obtain ⟨hl, htail⟩ := ih (hls l List.mem_cons_self).2 (hls' l' List.mem_cons_self).2
        (fun x hx => hls x (List.mem_cons_of_mem _ hx)) (fun x hx => hls' x (List.mem_cons_of_mem _ hx)) hrest
      exact ⟨hfirst, by rw [hl, htail]⟩

namespace RawResponse

/-- A response is read in one way only. -/
theorem bytes_injective {r r' : RawResponse} (h : r.bytes = r'.bytes) : r = r' := by
  have hat := r.indexOf_bytes
  rw [h, r'.indexOf_bytes] at hat
  rw [bytes_eq, bytes_eq] at h
  obtain ⟨hhead, hrest⟩ := List.append_inj h (Option.some.inj hat).symm
  obtain ⟨hline, hls⟩ := joined_inj r.statusLine_free r'.statusLine_free r.headers_lines r'.headers_lines hhead
  have hbody : r.body = r'.body := by
    simpa using hrest
  cases r
  cases r'
  cases hline
  cases hls
  cases hbody
  rfl

end RawResponse

/-- The name of a header line, if it has one: what stands before its first colon. -/
def headerName (line : Bytes) : Option Bytes :=
  let name := (stringTrim (line.takeWhile (· ≠ 58))).map toLower
  if 58 ∈ line ∧ name ≠ [] then some name else none

/-- The names are compared without regard to case. -/
def Names (key line : Bytes) : Prop := headerName line = some (key.map toLower)

instance (key line : Bytes) : Decidable (Names key line) := inferInstanceAs (Decidable (_ = _))

def headerEntry (key value : Bytes) : Bytes := key ++ [58, 32] ++ value

/-- A response with one header of the name, and with everything else of another response. -/
structure IsUpsert (r : RawResponse) (key value : Bytes) (r' : RawResponse) : Prop where
  one : r'.headers.filter (Names key ·) = [headerEntry key value]
  others : r'.headers.filter (¬Names key ·) = r.headers.filter (¬Names key ·)
  statusLine : r'.statusLine = r.statusLine
  body : r'.body = r.body

/-- What may be written as a header. -/
structure IsHeader (key value : Bytes) : Prop where
  key_ne : key ≠ []
  no_colon : (58 : UInt8) ∉ key
  key_trim : stringTrim key = key
  key_free : ¬crlf <:+: key
  value_free : ¬crlf <:+: value

theorem findCrlf_eq_none {s : Bytes} : findCrlf s = none ↔ ¬crlf <:+: s := by
  constructor
  · intro h
    exact (indexOf_eq_none (by decide)).mp (indexOf_crlf_none h)
  · intro h
    cases hn : findCrlf s with
    | none => rfl
    | some n => exact absurd ⟨s.take n, s.drop (n + 2), by rw [crlf, List.append_assoc]; exact (findCrlf_some hn).2.symm⟩ h

theorem headerEntry_free {key value : Bytes} :
    findCrlf (headerEntry key value) = none ↔ ¬crlf <:+: key ∧ ¬crlf <:+: value := by
  rw [findCrlf_eq_none, headerEntry, List.append_assoc]
  constructor
  · intro h
    exact ⟨fun hk => h (hk.trans (List.prefix_append _ _).isInfix),
      fun hv => h (hv.trans ((List.suffix_append _ _).trans (List.suffix_append _ _)).isInfix)⟩
  · rintro ⟨hk, hv⟩
    rw [← findCrlf_eq_none] at hk hv ⊢
    have hvalue : findCrlf (58 :: 32 :: value) = none := findCrlf_cons (by decide) (findCrlf_cons (by decide) hv)
    exact findCrlf_append_none hk (by decide) hvalue

theorem headerName_eq {line key : Bytes} (h : headerName line = some key) :
    (58 : UInt8) ∈ line ∧ key ≠ [] ∧ (stringTrim (line.takeWhile (· ≠ 58))).map toLower = key := by
  unfold headerName at h
  dsimp only at h
  split_ifs at h with hname
  obtain ⟨hmem, hne⟩ := hname
  cases h
  exact ⟨hmem, hne, rfl⟩

theorem takeWhile_colon {a : Bytes} (ha : (58 : UInt8) ∉ a) (b : Bytes) : (a ++ 58 :: b).takeWhile (· ≠ 58) = a := by
  have hall : ∀ c ∈ a, decide (c ≠ 58) = true := fun c hc => decide_eq_true fun he => ha (he ▸ hc)
  rw [List.takeWhile_append_of_pos hall, List.takeWhile_cons_of_neg (by decide), List.append_nil]

theorem headerName_entry {key value : Bytes} :
    Names key (headerEntry key value) ↔ key ≠ [] ∧ (58 : UInt8) ∉ key ∧ stringTrim key = key := by
  have hentry : headerEntry key value = key ++ 58 :: (32 :: value) := List.append_assoc _ _ _
  constructor
  · intro h
    obtain ⟨-, hne, hname⟩ := headerName_eq h
    rw [hentry] at hname
    have hkey : key ≠ [] := by
      rintro rfl
      exact hne rfl
    have hcolon : (58 : UInt8) ∉ key := by
      intro hmem
      obtain ⟨a, b, rfl, ha⟩ := List.eq_append_cons_of_mem hmem
      rw [List.append_assoc, List.cons_append, takeWhile_colon ha] at hname
      have hlen := congrArg List.length hname
      have htrim := (stringTrim_inside a).length_le
      simp only [List.length_map, List.length_append, List.length_cons] at hlen
      omega
    rw [takeWhile_colon hcolon] at hname
    have hlen := congrArg List.length hname
    rw [List.length_map, List.length_map] at hlen
    exact ⟨hkey, hcolon, (stringTrim_inside key).eq_of_length hlen⟩
  · rintro ⟨hkey, hcolon, htrim⟩
    have hne : (stringTrim key).map toLower ≠ [] := by
      rwa [htrim, Ne, List.map_eq_nil_iff]
    rw [Names, headerName, hentry, takeWhile_colon hcolon, if_pos ⟨by simp, hne⟩, htrim]

theorem isHeader_iff {key value : Bytes} :
    IsHeader key value ↔ Names key (headerEntry key value) ∧ HeadLine (headerEntry key value) := by
  rw [headerName_entry, HeadLine, headerEntry_free]
  constructor
  · intro h
    exact ⟨⟨h.key_ne, h.no_colon, h.key_trim⟩, by simp [headerEntry], h.key_free, h.value_free⟩
  · rintro ⟨⟨hne, hcolon, htrim⟩, -, hkey, hvalue⟩
    exact ⟨hne, hcolon, htrim, hkey, hvalue⟩

section Lines

variable {key value entry l : Bytes} {ls : List Bytes} {replaced : Bool}

/-- The name that the loop looks for in a line is the name of the line. -/
theorem upsertLines_cons (hkey : key ≠ []) (h0 : (0 : UInt8) ∉ l) :
    upsertLines (key.map toLower) entry replaced (l :: ls) =
      if Names key l then
        if replaced then upsertLines (key.map toLower) entry true ls
        else entry :: upsertLines (key.map toLower) entry true ls
      else l :: upsertLines (key.map toLower) entry replaced ls := by
  by_cases hmem : (58 : UInt8) ∈ l
  · obtain ⟨a, b, rfl, ha⟩ := List.eq_append_cons_of_mem hmem
    have hplain : ∀ d ∈ a, d ≠ 58 ∧ d ≠ 0 := fun d hd =>
      ⟨fun he => ha (he ▸ hd), fun he => h0 (he ▸ List.mem_append_left _ hd)⟩
    have hnames : Names key (a ++ 58 :: b) ↔ (stringTrim a).map toLower = key.map toLower := by
      constructor
      · intro h
        have hname := (headerName_eq h).2.2
        rwa [takeWhile_colon ha] at hname
      · intro h
        have hne : (stringTrim a).map toLower ≠ [] := by
          rwa [h, Ne, List.map_eq_nil_iff]
        rw [Names, headerName, takeWhile_colon ha, if_pos ⟨hmem, hne⟩, h]
    rw [upsertLines, strstr_char hplain (by decide)]
    cases a with
    | nil =>
      have hnot : ¬Names key ([] ++ 58 :: b) := by
        rw [hnames]
        intro h
        exact hkey (List.map_eq_nil_iff.mp h.symm)
      rw [if_neg hnot]
      rfl
    | cons c a =>
      have htake : (c :: a ++ 58 :: b).take (c :: a).length = c :: a := List.take_left
      dsimp only [List.length_cons] at htake ⊢
      rw [htake]
      by_cases hname : Names key (c :: a ++ 58 :: b)
      · rw [if_pos hname, if_pos (hnames.mp hname)]
      · rw [if_neg hname, if_neg fun h => hname (hnames.mpr h)]
  · have hnot : ¬Names key l := fun h => hmem (headerName_eq h).1
    rw [upsertLines, strstr_absent fun d hd (he : d = 58) => hmem (he ▸ hd), if_neg hnot]

theorem others_upsertLines (hkey : key ≠ []) (h0 : ∀ l ∈ ls, (0 : UInt8) ∉ l) (hentry : Names key entry) :
    (upsertLines (key.map toLower) entry replaced ls).filter (¬Names key ·) = ls.filter (¬Names key ·) := by
  induction ls generalizing replaced with
  | nil =>
    cases replaced with
    | true => rfl
    | false => rw [upsertLines, if_neg (by decide), List.filter_cons_of_neg (by simpa using hentry)]
  | cons l ls ih =>
    have hrest : ∀ l ∈ ls, (0 : UInt8) ∉ l := fun x hx => h0 x (List.mem_cons_of_mem _ hx)
    have ih := fun r => @ih r hrest
    rw [upsertLines_cons hkey (h0 l List.mem_cons_self)]
    by_cases hname : Names key l
    · rw [if_pos hname, List.filter_cons_of_neg (by simpa using hname)]
      split_ifs
      · exact ih true
      · rw [List.filter_cons_of_neg (by simpa using hentry), ih true]
    · rw [if_neg hname, List.filter_cons_of_pos (by simpa using hname),
        List.filter_cons_of_pos (by simpa using hname), ih replaced]

theorem named_upsertLines (hkey : key ≠ []) (h0 : ∀ l ∈ ls, (0 : UInt8) ∉ l) (hentry : Names key entry) :
    (upsertLines (key.map toLower) entry replaced ls).filter (Names key ·) = if replaced then [] else [entry] := by
  induction ls generalizing replaced with
  | nil =>
    cases replaced with
    | true => rfl
    | false =>
      rw [upsertLines, if_neg (by decide), List.filter_cons_of_pos (by simpa using hentry), List.filter_nil]
  | cons l ls ih =>
    have hrest : ∀ l ∈ ls, (0 : UInt8) ∉ l := fun x hx => h0 x (List.mem_cons_of_mem _ hx)
    have ih := fun r => @ih r hrest
    rw [upsertLines_cons hkey (h0 l List.mem_cons_self)]
    by_cases hname : Names key l
    · rw [if_pos hname]
      cases replaced with
      | true => exact ih true
      | false =>
        rw [if_neg (by decide), if_neg (by decide), List.filter_cons_of_pos (by simpa using hentry), ih true]
        rfl
    · rw [if_neg hname, List.filter_cons_of_neg (by simpa using hname), ih replaced]

/-- A second time changes nothing. -/
theorem upsertLines_twice (hkey : key ≠ []) (h0 : ∀ l ∈ ls, (0 : UInt8) ∉ l) (hentry : Names key entry)
    (h0entry : (0 : UInt8) ∉ entry) :
    upsertLines (key.map toLower) entry replaced (upsertLines (key.map toLower) entry replaced ls) =
      upsertLines (key.map toLower) entry replaced ls := by
  induction ls generalizing replaced with
  | nil =>
    cases replaced with
    | true => rfl
    | false =>
      have hone : upsertLines (key.map toLower) entry false [] = [entry] := rfl
      rw [hone, upsertLines_cons hkey h0entry, if_pos hentry]
      rfl
  | cons l ls ih =>
    have h0l := h0 l List.mem_cons_self
    have hrest : ∀ l ∈ ls, (0 : UInt8) ∉ l := fun x hx => h0 x (List.mem_cons_of_mem _ hx)
    have ih := fun r => @ih r hrest
    by_cases hname : Names key l
    · cases replaced with
      | true =>
        rw [upsertLines_cons hkey h0l, if_pos hname, if_pos rfl]
        exact ih true
      | false =>
        have hcut : upsertLines (key.map toLower) entry false (l :: ls) =
            entry :: upsertLines (key.map toLower) entry true ls := by
          rw [upsertLines_cons hkey h0l, if_pos hname, if_neg (by decide)]
        rw [hcut, upsertLines_cons hkey h0entry, if_pos hentry, if_neg (by decide), ih true]
    · have hcut : upsertLines (key.map toLower) entry replaced (l :: ls) =
          l :: upsertLines (key.map toLower) entry replaced ls := by
        rw [upsertLines_cons hkey h0l, if_neg hname]
      rw [hcut, upsertLines_cons hkey h0l, if_neg hname, ih replaced]

end Lines

theorem zero_mem_joined {line : Bytes} {ls : List Bytes} :
    (0 : UInt8) ∈ joined line ls ↔ 0 ∈ line ∨ ∃ l ∈ ls, (0 : UInt8) ∈ l := by
  induction ls generalizing line with
  | nil => simp [joined]
  | cons l ls ih => simp [joined, ih, crlf]

namespace RawResponse

variable {r : RawResponse} {key value : Bytes}

/-- The response with the loop run over its headers. -/
def upsert (r : RawResponse) (key value : Bytes) (h : IsHeader key value) : RawResponse where
  statusLine := r.statusLine
  headers := upsertLines (key.map toLower) (headerEntry key value) false r.headers
  body := r.body
  statusLine_free := r.statusLine_free
  headers_lines l hl := by
    rcases mem_upsertLines hl with hl | rfl
    · exact r.headers_lines l hl
    · exact (isHeader_iff.mp h).2

theorem no_zero (h0 : (0 : UInt8) ∉ r.head) : ∀ l ∈ r.headers, (0 : UInt8) ∉ l := fun l hl hmem =>
  h0 (zero_mem_joined.mpr (.inr ⟨l, hl, hmem⟩))

theorem upsert_of_zero (h0 : (0 : UInt8) ∈ r.head) (key value : Bytes) :
    upsertResponseHeader r.bytes key value = r.bytes := by
  rw [head] at h0
  rw [bytes, upsertResponseHeader_head r.statusLine_free r.headers_lines, if_pos h0]

theorem upsert_bytes (h0 : (0 : UInt8) ∉ r.head) (h : IsHeader key value) :
    upsertResponseHeader r.bytes key value = (r.upsert key value h).bytes := by
  rw [head] at h0
  rw [bytes, upsertResponseHeader_head r.statusLine_free r.headers_lines, if_neg h0]
  rfl

theorem isUpsert_upsert (h0 : (0 : UInt8) ∉ r.head) (h : IsHeader key value) :
    IsUpsert r key value (r.upsert key value h) where
  one := named_upsertLines h.key_ne (no_zero h0) (isHeader_iff.mp h).1
  others := others_upsertLines h.key_ne (no_zero h0) (isHeader_iff.mp h).1
  statusLine := rfl
  body := rfl

theorem upsert_twice (h0 : (0 : UInt8) ∉ r.head) (h : IsHeader key value) :
    upsertResponseHeader (r.upsert key value h).bytes key value = (r.upsert key value h).bytes := by
  by_cases h0' : (0 : UInt8) ∈ (r.upsert key value h).head
  · exact upsert_of_zero h0' key value
  · rw [upsert_bytes h0' h]
    have hboth := isHeader_iff.mp h
    by_cases h0entry : (0 : UInt8) ∈ headerEntry key value
    · -- the entry is among the headers, and with it the zero byte
      have hmem : headerEntry key value ∈ (r.upsert key value h).headers.filter (Names key ·) := by
        rw [(isUpsert_upsert h0 h).one]
        exact List.mem_singleton_self _
      exact absurd h0entry (no_zero h0' _ (List.mem_filter.mp hmem).1)
    · have htwice : upsertLines (key.map toLower) (headerEntry key value) false (r.upsert key value h).headers =
          (r.upsert key value h).headers := upsertLines_twice h.key_ne (no_zero h0) hboth.1 h0entry
      rw [bytes, bytes]
      change (r.upsert key value h).statusLine ++ 13 :: 10 :: (joinLines (upsertLines _ _ false _) ++ _) = _
      rw [htwice]
      rfl

/-- A response with a zero byte in a header. -/
def zeroInHeader : RawResponse where
  statusLine := ascii "HTTP/1.1 200 OK"
  headers := [ascii "X: a" ++ [0]]
  body := []
  statusLine_free := by
    rw [ascii_ofList]
    decide
  headers_lines l hl := by
    rw [List.mem_singleton.mp hl, ascii_ofList]
    exact ⟨by decide, by decide⟩

end RawResponse

end ToiLang.Http
