import ToiLang.Http.Locality
import ToiLang.Http.Connection

namespace ToiLang.Http

/-! A connection whose stream arrives in pieces. -/

/-- A request line and header lines with no empty line behind them, where the headers ask for no
body. -/
def OpenHead (b : Bytes) : Prop :=
  ∃ line ls h, b = line ++ 13 :: 10 :: joinLines ls ∧ findCrlf line = none ∧
    (parseRequestLine line).isSome ∧ (∀ l ∈ ls, HeadLine l) ∧ Head.empty.addLines ls = some h ∧
    Message.Bodiless h

/-- A request that is complete: its headers are closed. -/
def Complete (b : Bytes) (r : Request) : Prop := httpParse b = some (.request r) ∧ ¬OpenHead b

/-- How far `http.parse` comes in a text. -/
inductive Shape (b : Bytes) : Prop
  | noLine : findCrlf b = none → Shape b
  | badLine (line rest : Bytes) : b = line ++ 13 :: 10 :: rest → findCrlf line = none →
      parseRequestLine line = none → Shape b
  | badHeader (line : Bytes) (ls : List Bytes) (rest : Bytes) (rl : Bytes × Bytes × Option Bytes × Bytes) :
      b = line ++ 13 :: 10 :: (joinLines ls ++ rest) → findCrlf line = none →
      parseRequestLine line = some rl → (∀ l ∈ ls, HeadLine l) → Head.empty.addLines ls = none → Shape b
  | open (line : Bytes) (ls : List Bytes) (tail : Bytes) (rl : Bytes × Bytes × Option Bytes × Bytes)
      (h : Head) : b = line ++ 13 :: 10 :: (joinLines ls ++ tail) → findCrlf line = none →
      parseRequestLine line = some rl → (∀ l ∈ ls, HeadLine l) → Head.empty.addLines ls = some h →
      findCrlf tail = none → Shape b
  | closed (line : Bytes) (ls : List Bytes) (rest : Bytes) (rl : Bytes × Bytes × Option Bytes × Bytes)
      (h : Head) : b = line ++ 13 :: 10 :: (joinLines ls ++ 13 :: 10 :: rest) → findCrlf line = none →
      parseRequestLine line = some rl → (∀ l ∈ ls, HeadLine l) → Head.empty.addLines ls = some h → Shape b

theorem shape (b : Bytes) : Shape b := by
  cases hn : findCrlf b with
  | none => exact .noLine hn
  | some n =>
    obtain ⟨-, hcut⟩ := findCrlf_some hn
    have hline := findCrlf_take hn
    cases hrl : parseRequestLine (b.take n) with
    | none => exact .badLine _ _ hcut hline hrl
    | some rl =>
      obtain ⟨ls, tail, hlines, hls, htail⟩ := exists_lines (b.drop (n + 2))
      rw [hlines] at hcut
      cases hh : Head.empty.addLines ls with
      | none => exact .badHeader _ ls tail rl hcut hline hrl hls hh
      | some h =>
        cases ht : findCrlf tail with
        | none => exact .open _ ls tail rl h hcut hline hrl hls hh ht
        | some m =>
          obtain rfl := htail m ht
          have hrest := (findCrlf_some ht).2
          rw [hrest] at hcut
          exact .closed _ ls _ rl h hcut hline hrl hls hh

variable {b c line rest tail : Bytes} {ls : List Bytes} {rl : Bytes × Bytes × Option Bytes × Bytes}
  {h : Head} {r : Request}

theorem httpParse_badLine (hline : findCrlf line = none) (hrl : parseRequestLine line = none)
    (rest : Bytes) : httpParse (line ++ 13 :: 10 :: rest) = some .rejected := by
  simp only [httpParse, findCrlf_line hline, List.take_left, hrl]

/-- What is behind an accepted request line. -/
theorem httpParse_head (hline : findCrlf line = none) (hrl : parseRequestLine line = some rl)
    (hls : ∀ l ∈ ls, HeadLine l) (q : Bytes) :
    httpParse (line ++ 13 :: 10 :: (joinLines ls ++ q)) =
      finishRequest rl (line ++ 13 :: 10 :: (joinLines ls ++ q)).length
        (match Head.empty.addLines ls with
        | none => .rejected
        | some h => parseHeaders
            ((line ++ 13 :: 10 :: (joinLines ls ++ q)).length + 1 - ls.length) q h) := by
  have hlen := joinLines_length ls
  have hfuel : ls.length < (line ++ 13 :: 10 :: (joinLines ls ++ q)).length + 1 := by
    simp only [List.length_append, List.length_cons]
    omega
  simp only [httpParse, findCrlf_line hline, List.take_left, drop_line, hrl,
    parseHeaders_joinLines hls q .empty hfuel] <;> rfl

theorem httpParse_badHeader (hline : findCrlf line = none) (hrl : parseRequestLine line = some rl)
    (hls : ∀ l ∈ ls, HeadLine l) (hh : Head.empty.addLines ls = none) (q : Bytes) :
    httpParse (line ++ 13 :: 10 :: (joinLines ls ++ q)) = some .rejected := by
  rw [httpParse_head hline hrl hls, hh]
  rfl

/-- The fuel that the header loop has left behind the lines. -/
theorem fuel_left (line : Bytes) (ls : List Bytes) (q : Bytes) :
    ∃ fuel, (line ++ 13 :: 10 :: (joinLines ls ++ q)).length + 1 - ls.length = fuel + 1 := by
  have hlen := joinLines_length ls
  refine Nat.exists_eq_succ_of_ne_zero ?_
  simp only [List.length_append, List.length_cons]
  omega

theorem httpParse_open (hline : findCrlf line = none) (hrl : parseRequestLine line = some rl)
    (hls : ∀ l ∈ ls, HeadLine l) (hh : Head.empty.addLines ls = some h) (ht : findCrlf tail = none) :
    httpParse (line ++ 13 :: 10 :: (joinLines ls ++ tail)) =
      if tail = [] then
        finishRequest rl (line ++ 13 :: 10 :: (joinLines ls ++ tail)).length (.done h [])
      else some .incomplete := by
  obtain ⟨fuel, hfuel⟩ := fuel_left line ls tail
  rw [httpParse_head hline hrl hls, hh]
  dsimp only
  rw [hfuel, parseHeaders, ht]
  by_cases he : tail = []
  · rw [if_pos he, if_pos he]
  · rw [if_neg he, if_neg he]
    rfl

theorem httpParse_closed (hline : findCrlf line = none) (hrl : parseRequestLine line = some rl)
    (hls : ∀ l ∈ ls, HeadLine l) (hh : Head.empty.addLines ls = some h) (rest : Bytes) :
    httpParse (line ++ 13 :: 10 :: (joinLines ls ++ 13 :: 10 :: rest)) =
      finishRequest rl (line ++ 13 :: 10 :: (joinLines ls ++ 13 :: 10 :: rest)).length
        (.done h rest) := by
  obtain ⟨fuel, hfuel⟩ := fuel_left line ls (13 :: 10 :: rest)
  rw [httpParse_head hline hrl hls, hh]
  dsimp only
  rw [hfuel]
  rfl

/-- A text whose headers are closed is not open. -/
theorem not_openHead_closed (hline : findCrlf line = none) (hls : ∀ l ∈ ls, HeadLine l) (rest : Bytes) :
    ¬OpenHead (line ++ 13 :: 10 :: (joinLines ls ++ 13 :: 10 :: rest)) := by
  rintro ⟨line', ls', h', heq, hline', -, hls', -, -⟩
  have hn := findCrlf_line hline (joinLines ls ++ 13 :: 10 :: rest)
  rw [heq, findCrlf_line hline'] at hn
  obtain ⟨rfl, htail⟩ := List.append_inj heq (Option.some.inj hn).symm
  have htail' : joinLines ls ++ 13 :: 10 :: rest = joinLines ls' ++ [] := by simpa using htail
  have hstop : Stops (13 :: 10 :: rest) := fun n h => (Option.some.inj h).symm
  obtain ⟨-, hnil⟩ := lines_unique hls hls' hstop (fun n h => by cases h) htail'
  cases hnil

/-- An open text is taken for a request that has all of it. -/
theorem OpenHead.httpParse (ho : OpenHead b) :
    ∃ r, Http.httpParse b = some (.request r) ∧ r.consumed = b.length := by
  obtain ⟨line, ls, h, rfl, hline, hrl, hls, hh, hbody⟩ := ho
  obtain ⟨rl, hrl⟩ := Option.isSome_iff_exists.mp hrl
  have hp := @httpParse_open line [] ls rl h hline hrl hls hh rfl
  rw [List.append_nil, if_pos rfl] at hp
  have hnil : parseBody h [] = some (.decoded [] 0) := by
    rcases parseBody_nil h with ⟨-, hno⟩ | ⟨hyes, -⟩
    · exact absurd hbody hno
    · exact hyes
  refine ⟨_, by rw [hp, finishRequest, hnil], ?_⟩
  simp

/-- The answer of `http.parse`, if it has one. -/
def codeAnswer (b : Bytes) : Option (Option ParseResult) :=
  match httpParse b with
  | some .incomplete => none
  | r => some r

open Classical in
/-- The answer for a text whose headers are closed. -/
noncomputable def wholeAnswer (b : Bytes) : Option (Option ParseResult) :=
  if OpenHead b then none else codeAnswer b

theorem codeAnswer_some {x : Option ParseResult} (h : codeAnswer b = some x) : httpParse b = x := by
  unfold codeAnswer at h
  split at h
  · cases h
  · exact Option.some.inj h

theorem codeAnswer_none (h : codeAnswer b = none) : httpParse b = some .incomplete := by
  unfold codeAnswer at h
  split at h
  · assumption
  · cases h

theorem codeAnswer_of (h : httpParse b ≠ some .incomplete) : codeAnswer b = some (httpParse b) := by
  unfold codeAnswer
  split
  next hinc => exact absurd hinc h
  next => rfl

theorem wholeAnswer_some {x : Option ParseResult} (h : wholeAnswer b = some x) :
    ¬OpenHead b ∧ httpParse b = x := by
  unfold wholeAnswer at h
  split_ifs at h with ho
  exact ⟨ho, codeAnswer_some h⟩

theorem wholeAnswer_complete : wholeAnswer b = some (some (.request r)) ↔ Complete b r := by
  constructor
  · intro h
    obtain ⟨ho, hp⟩ := wholeAnswer_some h
    exact ⟨hp, ho⟩
  · rintro ⟨hp, ho⟩
    rw [wholeAnswer, if_neg ho, codeAnswer_of (by rw [hp]; intro h; cases h), hp]

theorem codeAnswer_eq (ho : ¬OpenHead b) : codeAnswer b = wholeAnswer b := by
  rw [wholeAnswer, if_neg ho]

/-- What is answered stays so, whatever follows. -/
theorem wholeAnswer_stable : Incremental.Stable wholeAnswer := by
  intro b c x hx
  obtain ⟨ho, hp⟩ := wholeAnswer_some hx
  have hinc : httpParse b ≠ some .incomplete := by
    intro hinc
    rw [wholeAnswer, if_neg ho, codeAnswer, hinc] at hx
    cases hx
  suffices hsame : httpParse (b ++ c) = x ∧ ¬OpenHead (b ++ c) by
    rw [wholeAnswer, if_neg hsame.2, codeAnswer_of (by rw [hsame.1, ← hp]; exact hinc), hsame.1]
  have hrejected : ∀ b, httpParse b = some .rejected → ¬OpenHead b := by
    intro b hb ho
    obtain ⟨r, hr, -⟩ := ho.httpParse
    rw [hb] at hr
    cases hr
  cases shape b with
  | noLine hn => exact absurd (by rw [httpParse, hn]) hinc
  | badLine line rest hb hline hrl =>
    subst hb
    rw [httpParse_badLine hline hrl] at hp
    have hc := httpParse_badLine hline hrl (rest ++ c)
    rw [← List.cons_append, ← List.cons_append, ← List.append_assoc] at hc
    exact ⟨hc.trans hp, hrejected _ hc⟩
  | badHeader line ls rest rl hb hline hrl hls hh =>
    subst hb
    rw [httpParse_badHeader hline hrl hls hh] at hp
    have hc := httpParse_badHeader hline hrl hls hh (rest ++ c)
    have hshape : line ++ 13 :: 10 :: (joinLines ls ++ (rest ++ c)) =
        line ++ 13 :: 10 :: (joinLines ls ++ rest) ++ c := by simp
    rw [hshape] at hc
    exact ⟨hc.trans hp, hrejected _ hc⟩
  | «open» line ls tail rl h hb hline hrl hls hh ht =>
    subst hb
    rw [httpParse_open hline hrl hls hh ht] at hinc
    by_cases he : tail = []
    · subst he
      rw [if_pos rfl, finishRequest] at hinc
      rcases parseBody_nil h with ⟨hnil, -⟩ | ⟨-, hyes⟩
      · rw [hnil] at hinc
        exact absurd rfl hinc
      · refine absurd ⟨line, ls, h, ?_, hline, ?_, hls, hh, hyes⟩ ho
        · rw [List.append_nil]
        · rw [hrl]
          rfl
    · rw [if_neg he] at hinc
      exact absurd rfl hinc
  | closed line ls rest rl h hb hline hrl hls hh =>
    have hshape : b ++ c = line ++ 13 :: 10 :: (joinLines ls ++ 13 :: 10 :: (rest ++ c)) := by
      rw [hb]
      simp
    refine ⟨?_, by rw [hshape]; exact not_openHead_closed hline hls _⟩
    rw [hshape, httpParse_closed hline hrl hls hh, ← hshape]
    rw [hb, httpParse_closed hline hrl hls hh, ← hb] at hp hinc
    rw [finishRequest] at hp hinc ⊢
    cases hbody : parseBody h rest with
    | none =>
      rw [parseBody_stable (.inl rfl) hbody]
      rw [hbody] at hp
      exact hp
    | some res =>
      rw [hbody] at hp hinc
      cases res with
      | incomplete => exact absurd rfl hinc
      | invalid =>
        rw [parseBody_stable (.inr rfl) hbody]
        exact hp
      | decoded body k =>
        obtain ⟨used, left, rfl, -, hlocal⟩ := parseBody_local hbody
        have hc := hlocal (left ++ c)
        rw [← List.append_assoc] at hc
        have hk : (b ++ c).length - (used ++ left ++ c).length = b.length - (used ++ left).length := by
          simp only [List.length_append]
          omega
        rw [hc]
        dsimp only at hp ⊢
        rw [hk]
        exact hp

/-- A request is decided by the bytes that it consumes. -/
theorem Complete.local (hc : Complete b r) :
    ∃ used left, b = used ++ left ∧ used.length = r.consumed ∧ 0 < r.consumed ∧
      ∀ x, Complete (used ++ x) r := by
  obtain ⟨hp, ho⟩ := hc
  cases shape b with
  | noLine hn =>
    rw [httpParse, hn] at hp
    cases hp
  | badLine line rest hb hline hrl =>
    rw [hb, httpParse_badLine hline hrl] at hp
    cases hp
  | badHeader line ls rest rl hb hline hrl hls hh =>
    rw [hb, httpParse_badHeader hline hrl hls hh] at hp
    cases hp
  | «open» line ls tail rl h hb hline hrl hls hh ht =>
    subst hb
    rw [httpParse_open hline hrl hls hh ht] at hp
    by_cases he : tail = []
    · subst he
      rw [if_pos rfl, finishRequest] at hp
      rcases parseBody_nil h with ⟨hnil, -⟩ | ⟨-, hyes⟩
      · rw [hnil] at hp
        cases hp
      · refine absurd ⟨line, ls, h, ?_, hline, ?_, hls, hh, hyes⟩ ho
        · rw [List.append_nil]
        · rw [hrl]
          rfl
    · rw [if_neg he] at hp
      cases hp
  | closed line ls rest rl h hb hline hrl hls hh =>
    subst hb
    rw [httpParse_closed hline hrl hls hh, finishRequest] at hp
    cases hbody : parseBody h rest with
    | none => simp [hbody] at hp
    | some res =>
      rw [hbody] at hp
      cases res with
      | incomplete => cases hp
      | invalid => cases hp
      | decoded body k =>
        obtain ⟨used, left, rfl, hk, hlocal⟩ := parseBody_local hbody
        have hr := ParseResult.request.inj (Option.some.inj hp)
        have hcons : r.consumed = (line ++ 13 :: 10 :: (joinLines ls ++ 13 :: 10 :: used)).length := by
          rw [← hr]
          simp only [List.length_append, List.length_cons]
          omega
        refine ⟨line ++ 13 :: 10 :: (joinLines ls ++ 13 :: 10 :: used), left, by simp, hcons.symm, ?_,
          fun x => ?_⟩
        · rw [hcons]
          simp only [List.length_append, List.length_cons]
          omega
        · have hshape : line ++ 13 :: 10 :: (joinLines ls ++ 13 :: 10 :: used) ++ x =
              line ++ 13 :: 10 :: (joinLines ls ++ 13 :: 10 :: (used ++ x)) := by simp
          rw [hshape]
          refine ⟨?_, not_openHead_closed hline hls _⟩
          rw [httpParse_closed hline hrl hls hh, finishRequest, hlocal x, ← hr]
          dsimp only
          congr 3
          simp only [List.length_append, List.length_cons]
          omega

theorem Complete.le_length (hc : Complete b r) : r.consumed ≤ b.length := by
  obtain ⟨used, left, rfl, hused, -, -⟩ := hc.local
  rw [List.length_append]
  omega

/-- A text that has all the bytes of the request is enough for it. -/
theorem Complete.of_prefix (hc : Complete (b ++ rest) r) (hlen : r.consumed ≤ b.length) :
    Complete b r := by
  obtain ⟨used, left, heq, hused, -, hlocal⟩ := hc.local
  have hprefix : used <+: b :=
    List.prefix_of_prefix_length_le ⟨left, heq.symm⟩ ⟨rest, rfl⟩ (by omega)
  obtain ⟨x, rfl⟩ := hprefix
  exact hlocal x

end ToiLang.Http
