import Mathlib.Tactic.Linarith
import ToiLang.Table

namespace ToiLang.Regex

/-- What `regexec` finds, as offsets from where it begins: the match and its groups. -/
structure Match where
  so : Nat
  eo : Nat
  groups : List (Option (Nat × Nat))

/-- `regexec` on a text from a position on. -/
abbrev Matcher := Bytes → Option Match

/-- The span of a match lies in the text. -/
def Matcher.Fits (m : Matcher) : Prop := ∀ s r, m s = some r → r.so ≤ r.eo ∧ r.eo ≤ s.length

def slice (s : Bytes) (a b : Nat) : Bytes := (s.take b).drop a

/-- The table that `build_match_result` makes, with `end` as `finish`. -/
structure MatchResult where
  start : Nat
  finish : Nat
  whole : Bytes
  groups : Table

def groupValue (text : Bytes) (basePos : Nat) : Option (Nat × Nat) → Value
  | none => .nil
  | some (so, eo) => .string (slice text (basePos + so) (basePos + eo))

/-- The groups from the index `i` on; the array part leaves out what it does not take. -/
def setGroups (text : Bytes) (basePos : Nat) : Nat → List (Option (Nat × Nat)) → Table → Table
  | _, [], t => t
  | i, g :: gs, t =>
    setGroups text basePos (i + 1) gs ((tableSetArray t i (groupValue text basePos g)).getD t)

def buildMatchResult (text : Bytes) (r : Match) (basePos : Nat) : MatchResult where
  start := basePos + r.so + 1
  finish := basePos + r.eo
  whole := slice text (basePos + r.so) (basePos + r.eo)
  groups := setGroups text basePos 1 r.groups initTable

section Loops

variable (m : Matcher) (src : Bytes)

/-- The loop of `regex_replace`: none when it is not at its end after `fuel` turns. -/
def replaceLoop (repl : Bytes) (count : Nat) : Nat → Bytes → Nat → Nat → Option (Bytes × Nat)
  | 0, _, _, _ => none
  | fuel + 1, out, pos, replaced =>
    if src.length < pos then some (out, pos)
    else
      match m (src.drop pos) with
      | none => some (out, pos)
      | some r =>
        let out := out ++ slice src pos (pos + r.so) ++ repl
        let pos := pos + r.eo
        if 0 < count ∧ count ≤ replaced + 1 then some (out, pos)
        else if r.so = r.eo ∧ pos < src.length then
          replaceLoop repl count fuel (out ++ slice src pos (pos + 1)) (pos + 1) (replaced + 1)
        else replaceLoop repl count fuel out pos (replaced + 1)

def regexReplace (repl : Bytes) (count : Int) (fuel : Nat) : Option Bytes :=
  (replaceLoop m src repl count.toNat fuel [] 0 0).map fun r => r.1 ++ src.drop r.2

/-- The loop of `regex_split`: each part with the separator behind it, which the code does not
keep, and the position at the end. -/
def splitLoop (maxsplit : Nat) : Nat → Nat → Nat → Option (List (Bytes × Bytes) × Nat)
  | 0, _, _ => none
  | fuel + 1, pos, splits =>
    if src.length < pos then some ([], pos)
    else if 0 < maxsplit ∧ maxsplit ≤ splits then some ([], pos)
    else
      match m (src.drop pos) with
      | none => some ([], pos)
      | some r =>
        let ms := pos + r.so
        let me := pos + r.eo
        let next := if r.so = r.eo ∧ me < src.length then me + 1 else me
        (splitLoop maxsplit fuel next (splits + 1)).map fun rest =>
          ((slice src pos ms, slice src ms me) :: rest.1, rest.2)

def regexSplit (maxsplit : Int) (fuel : Nat) : Option (List Bytes) :=
  (splitLoop m src maxsplit.toNat fuel 0 0).map fun r => r.1.map Prod.fst ++ [src.drop r.2]

/-- The loop of `regex_finditer` and `cregex_finditer`. -/
def finditerLoop : Nat → Nat → Option (List MatchResult)
  | 0, _ => none
  | fuel + 1, pos =>
    if src.length < pos then some []
    else
      match m (src.drop pos) with
      | none => some []
      | some r =>
        let rest :=
          if r.so = r.eo then
            if pos < src.length then finditerLoop fuel (pos + 1) else some []
          else finditerLoop fuel (pos + r.eo)
        rest.map (buildMatchResult src r pos :: ·)

def regexFinditer (fuel : Nat) : Option (List MatchResult) := finditerLoop m src fuel 0
def cregexFinditer (fuel : Nat) : Option (List MatchResult) := finditerLoop m src fuel 0

/-- The successive matches from a position on that do not overlap: behind an empty one the search
goes on one byte further, and it ends with an empty one at the end of the text. -/
def spans : Nat → Nat → List (Nat × Nat)
  | 0, _ => []
  | fuel + 1, pos =>
    match m (src.drop pos) with
    | none => []
    | some r =>
      (pos + r.so, pos + r.eo) ::
        if r.so = r.eo then
          if pos + r.eo < src.length then spans fuel (pos + r.eo + 1) else []
        else spans fuel (pos + r.eo)

def successive : List (Nat × Nat) := spans m src (src.length + 1) 0

end Loops

/-- The first matches, all of them when there is no limit. -/
def limited {α : Type} (limit : Nat) (l : List α) : List α := if limit = 0 then l else l.take limit

/-- The text from a position on with its matches replaced. -/
def spliced (src repl : Bytes) : Nat → List (Nat × Nat) → Bytes
  | pos, [] => src.drop pos
  | pos, (s, e) :: rest => slice src pos s ++ repl ++ spliced src repl e rest

/-- The loop ends, and each match is replaced once. -/
def Replaces (m : Matcher) (src repl : Bytes) (count : Int) : Prop :=
  ∃ fuel, regexReplace m src repl count fuel =
    some (spliced src repl 0 (limited count.toNat (successive m src)))

/-- The loop ends, and the parts and the separators are the text. -/
def Splits (m : Matcher) (src : Bytes) (maxsplit : Int) : Prop :=
  ∃ fuel cuts pos, splitLoop m src maxsplit.toNat fuel 0 0 = some (cuts, pos) ∧
    (cuts.flatMap fun c => c.1 ++ c.2) ++ src.drop pos = src

/-- The loop ends, and each result lies behind those before it. -/
def Finds (finditer : Nat → Option (List MatchResult)) : Prop :=
  ∃ fuel results, finditer fuel = some results ∧
    results.Pairwise fun a b => a.start < b.start ∧ a.finish < b.start

/-- The scan ends with an empty match at the end of the text, and a search from there finds one
again. -/
def StaysAtEnd (m : Matcher) (src : Bytes) : Prop :=
  (src.length, src.length) ∈ successive m src ∧ (m []).isSome

/-- No match that the loop splits at is empty and before the end of the text. -/
def SplitsBetween (m : Matcher) (src : Bytes) (maxsplit : Int) : Prop :=
  ∀ span ∈ limited maxsplit.toNat (successive m src), span.1 = span.2 → span.2 = src.length

/-- The search after the one from `pos` begins at `pos'`. -/
def Advances (m : Matcher) (src : Bytes) (pos pos' : Nat) : Prop :=
  ∃ r, m (src.drop pos) = some r ∧
    (r.so < r.eo ∧ pos' = pos + r.eo ∨ r.so = r.eo ∧ pos < src.length ∧ pos' = pos + 1)

/-- An empty match that is found from `pos` is not found again from the next byte. -/
def LeavesEmpty (m : Matcher) (src : Bytes) (pos : Nat) : Prop :=
  ∀ r r', pos < src.length → m (src.drop pos) = some r → r.so = r.eo →
    m (src.drop (pos + 1)) = some r' → r.so ≤ r'.so

end ToiLang.Regex
