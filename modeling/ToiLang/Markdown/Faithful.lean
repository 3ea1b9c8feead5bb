import ToiLang.Http.Split
import ToiLang.Markdown.Contribution

namespace ToiLang.Markdown

open Markup (WellNested render escape walk)
open Http (splitWith stringTrim)

/-! The whole of `to_html`: nested tags, escaped text, and each line that says something once. -/

/-- The tokens of the output, with line breaks between its pieces. -/
def document (parts : List Part) : List Markup.Token := [Markup.Token.text [10]].intercalate (parts.flatMap Part.pieces)

/-- The output is a sequence of parts that show inline text, its tags nested and closed in order. -/
def WellFormed (env : Env) (markdown : Bytes) : Prop :=
  ∃ parts : List Part, entries env markdown = parts.map Part.entry ∧ (∀ part ∈ parts, Shows env part) ∧
    toHtml env markdown = render (document parts) ∧ WellNested (document parts)

/-- How often the output shows the line with the number. -/
def showings (env : Env) (markdown : Bytes) (n : Nat) : Nat :=
  timesIn n ((entries env markdown).flatMap Entry.lines)

structure Faithful (env : Env) (markdown : Bytes) : Prop where
  wellFormed : WellFormed env markdown
  once : ∀ n role, roleAt (inputLines markdown) n = some role → role.IsContent → showings env markdown n = 1

/-- The line holds the first zero byte of the text. -/
def FirstZero (lines : List Bytes) (k : Nat) : Prop :=
  (∃ line, lines[k]? = some line ∧ 0 ∈ line) ∧ ∀ i < k, ∀ line, lines[i]? = some line → 0 ∉ line

/-- No fence stands directly behind a line that waits to be the header of a table, and behind a fence that
holds a zero byte no line says anything. Behind the first zero byte there are no lines for the code. -/
structure NothingLost (lines : List Bytes) : Prop where
  headers : ∀ n, roleAt lines n = some .waiting → roleAt lines (n + 1) = some .fence →
    ∃ i ≤ n, ∃ line, lines[i]? = some line ∧ 0 ∈ line
  fences : ∀ k, FirstZero lines k → roleAt lines k = some .fence →
    ∀ n > k, ∀ role, roleAt lines n = some role → ¬role.IsContent

variable {env : Env} {s : State} {lines front : List Bytes} {line : Bytes} {markdown : Bytes}

theorem run_writes (env : Env) (hs : s.Tidy) (lines : List Line) :
    Writes env s (lines.foldl (State.step env) s) ∧ (lines.foldl (State.step env) s).Tidy := by
  induction lines generalizing s with
  | nil => exact ⟨Writes.refl s, hs⟩
  | cons l lines ih =>
    have hstep := @step_processes env s hs l
    obtain ⟨hwrites, htidy⟩ := ih hstep.tidy
    exact ⟨hstep.writes.trans hwrites, htidy⟩

theorem start_tidy : State.start.Tidy := ⟨by decide, by decide, fun _ => rfl⟩

theorem wellFormed (env : Env) (markdown : Bytes) : WellFormed env markdown := by
  obtain ⟨hrun, htidy⟩ := run_writes env start_tidy
    (numbered (inputLines markdown).length 0 (splitWith [10] (markdown.length + 1) markdown))
  obtain ⟨hfinish, helements, -⟩ := finish_spec env htidy
  obtain ⟨out, hout, parts, hparts, hshows, hwalk⟩ := hrun.trans hfinish
  rw [helements] at hwalk
  have hentries : entries env markdown = parts.map Part.entry := by
    rw [entries, hout, hparts]
    rfl
  have hpieces : (parts.flatMap Part.pieces).map render = (parts.map Part.entry).flatMap Entry.html := by
    rw [List.map_flatMap, List.flatMap_map]
    rfl
  have htokens : (parts.flatMap Part.pieces).flatten = tokensOf parts := by
    rw [tokensOf, List.flatMap, List.flatten_flatten, List.map_map]
    rfl
  refine ⟨parts, hentries, hshows, ?_, ?_⟩
  · rw [toHtml, hentries, document, Markup.render_intercalate, hpieces]
    rfl
  · change Markup.walk [] (document parts) = some []
    rw [document, Markup.walk_intercalate, htokens]
    exact hwalk

theorem modeAfter_concat (lines : List Bytes) (line : Bytes) :
    modeAfter (lines ++ [line]) = (plays (modeAfter lines) line).2 := by
  rw [modeAfter, List.foldl_append]
  rfl

/-- What a line is does not depend on the lines behind it. -/
theorem roleAt_append {n : Nat} (h : n < lines.length) (more : List Bytes) :
    roleAt (lines ++ more) n = roleAt lines n := by
  rw [roleAt, roleAt, List.getElem?_append_left h, List.take_append_of_le_length (Nat.le_of_lt h)]

theorem roleAt_last (lines : List Bytes) (line : Bytes) (more : List Bytes) :
    roleAt (lines ++ line :: more) lines.length = some (plays (modeAfter lines) line).1 := by
  rw [roleAt, List.getElem?_append_right (Nat.le_refl _), List.take_left]
  simp

theorem roleAt_isSome {n : Nat} {role : Role} (h : roleAt lines n = some role) : n < lines.length := by
  obtain ⟨line, hline, -⟩ := Option.map_eq_some_iff.mp h
  exact (List.getElem?_eq_some_iff.mp hline).1

/-- The line waited to be a header when a fence was met. -/
def Dropped (lines : List Bytes) (n : Nat) : Prop :=
  roleAt lines n = some .waiting ∧ roleAt lines (n + 1) = some .fence

/-- What has become of the lines that are read. -/
structure Account (s : State) (lines : List Bytes) : Prop where
  tidy : s.Tidy
  reads : s.mode = modeAfter lines
  waiting : ∀ n, timesIn n s.pendingTableHeader.toList =
    if roleAt lines n = some .waiting ∧ n + 1 = lines.length then 1 else 0
  later : ∀ n ≥ lines.length, s.weight n = 0
  dropped : ∀ n, Dropped lines n → s.weight n = 0
  shown : ∀ n role, roleAt lines n = some role → role.IsContent → ¬Dropped lines n → s.weight n = 1

theorem account_start : Account State.start [] := by
  refine ⟨start_tidy, rfl, ?_, fun _ _ => rfl, ?_, ?_⟩
  · intro n
    simp [State.start]
  · intro n _
    rfl
  · intro n role h
    cases h

/-- What a step leaves of a line that was read before. -/
theorem Account.before {l : Line} {s' : State} {role : Role} {mode : Mode} (h : Account s lines)
    (hstep : Processes env s s' l role mode) {n : Nat} (hn : n ∉ l.numbers) :
    s'.weight n + (if role = .fence ∧ roleAt lines n = some .waiting ∧ n + 1 = lines.length then 1 else 0) =
      s.weight n := by
  rw [← hstep.others n hn, h.waiting n]
  by_cases hfence : role = .fence
  · simp [hfence]
  · simp [hfence]

/-- A line behind which more are read is dropped or not for good. -/
theorem dropped_append {n : Nat} (h : n + 1 < lines.length) (more : List Bytes) :
    Dropped (lines ++ more) n ↔ Dropped lines n := by
  rw [Dropped, Dropped, roleAt_append (by omega), roleAt_append h]

theorem not_dropped_last {n : Nat} (h : n + 1 = lines.length) : ¬Dropped lines n := by
  intro hdropped
  have hlt := roleAt_isSome hdropped.2
  omega

theorem Account.step {l : Line} (h : Account s lines) (hl : l.numbers = [lines.length]) :
    Account (s.step env l) (lines ++ [l.text]) := by
  have hstep := @step_processes env s h.tidy l
  rw [h.reads] at hstep
  have hlast := roleAt_last lines l.text []
  have hlength : (lines ++ [l.text]).length = lines.length + 1 := by simp
  have hbefore : ∀ n ≠ lines.length, (s.step env l).weight n +
      (if (plays (modeAfter lines) l.text).1 = .fence ∧ roleAt lines n = some .waiting ∧ n + 1 = lines.length
        then 1 else 0) = s.weight n := fun n hn => h.before hstep (by rw [hl]; simpa using hn)
  refine ⟨hstep.tidy, by rw [hstep.reads, modeAfter_concat], ?_, ?_, ?_, ?_⟩
  · intro n
    rw [hstep.pending, hlength]
    by_cases hn : n = lines.length
    · rw [hn, hlast]
      by_cases hwaiting : (plays (modeAfter lines) l.text).1 = .waiting
      · simp [hwaiting, hl]
      · simp [hwaiting]
    · have hother : ¬(roleAt (lines ++ [l.text]) n = some .waiting ∧ n + 1 = lines.length + 1) :=
        fun hboth => hn (Nat.succ.inj hboth.2)
      have hcount : l.numbers.count n = 0 := by
        rw [hl]
        exact List.count_eq_zero_of_not_mem (by simpa using hn)
      rw [if_neg hother]
      by_cases hwaiting : (plays (modeAfter lines) l.text).1 = .waiting
      · simp [hwaiting, hcount]
      · simp [hwaiting]
  · intro n hn
    have hw := hbefore n (by omega)
    rw [h.later n (by omega)] at hw
    omega
  · intro n hdropped
    have hlt := roleAt_isSome hdropped.2
    have hw := hbefore n (by omega)
    by_cases hnext : n + 1 < lines.length
    · rw [h.dropped n ((dropped_append hnext _).mp hdropped)] at hw
      omega
    · have heq : n + 1 = lines.length := by omega
      have hold : roleAt lines n = some .waiting := (roleAt_append (by omega) [l.text]).symm.trans hdropped.1
      have hfence := hdropped.2
      rw [heq, hlast] at hfence
      rw [if_pos ⟨Option.some.inj hfence, hold, heq⟩, h.shown n _ hold (.inr rfl) (not_dropped_last heq)] at hw
      omega
  · intro n role hrole hcontent hkept
    have hlt := roleAt_isSome hrole
    by_cases hn : n = lines.length
    · rw [hn, hlast] at hrole
      rw [hstep.itself (by rwa [Option.some.inj hrole]), hn, h.later _ (Nat.le_refl _), hl]
      simp
    · have hw := hbefore n hn
      have hold : roleAt lines n = some role := (roleAt_append (by omega) [l.text]).symm.trans hrole
      have hkeptOld : ¬Dropped lines n := fun hdropped =>
        hkept ((dropped_append (roleAt_isSome hdropped.2) _).mpr hdropped)
      rw [h.shown n role hold hcontent hkeptOld, if_neg] at hw
      · omega
      · intro hall
        refine hkept ⟨?_, ?_⟩
        · rw [roleAt_append (by omega), hall.2.1]
        · rw [hall.2.2, hlast, hall.1]

/-- The parts in front of the last one are the lines of the text. -/
theorem account_run (total : Nat) (last : Bytes) (front : List Bytes) (h : Account s lines) :
    ∃ s', Account s' (lines ++ front.map dropCr) ∧
      (numbered total lines.length (front ++ [last])).foldl (State.step env) s =
        s'.step env ⟨List.range' (lines.length + front.length) (total - (lines.length + front.length)), dropCr last⟩ := by
  induction front generalizing s lines with
  | nil => exact ⟨s, by simpa using h, rfl⟩
  | cons part front ih =>
    have hstep := @Account.step env _ _ ⟨[lines.length], dropCr part⟩ h rfl
    obtain ⟨s', haccount, hrun⟩ := ih hstep
    have hnumbered : numbered total lines.length (part :: front ++ [last]) =
        ⟨[lines.length], dropCr part⟩ :: numbered total (lines.length + 1) (front ++ [last]) := by
      cases front <;> rfl
    have hlength : (lines ++ [dropCr part]).length = lines.length + 1 := by simp
    rw [hlength] at hrun
    refine ⟨s', by simpa using haccount, ?_⟩
    rw [hnumbered, List.foldl_cons, hrun, List.length_cons]
    congr 2
    · congr 1 <;> omega

theorem mem_dropWhile {p : UInt8 → Bool} {c : UInt8} {l : Bytes} (hc : c ∈ l) (hp : p c = false) :
    c ∈ l.dropWhile p := by
  rw [← List.takeWhile_append_dropWhile (p := p) (l := l)] at hc
  rcases List.mem_append.mp hc with h | h
  · exact absurd (List.mem_takeWhile_imp h) (by simp [hp])
  · exact h

theorem zero_mem_trim {l : Bytes} (h : (0 : UInt8) ∈ l) : (0 : UInt8) ∈ stringTrim l := by
  have hfront := @mem_dropWhile Http.isBlank 0 l h (by decide)
  rw [stringTrim, List.rdropWhile, List.mem_reverse]
  exact mem_dropWhile (List.mem_reverse.mpr hfront) (by decide)

theorem zero_mem_tail {l : Bytes} (h : (0 : UInt8) ∈ l) (hl : startsWith l (ascii "|") = true) :
    (0 : UInt8) ∈ l.tail := by
  cases l with
  | nil => cases h
  | cons c rest =>
    simp [startsWith, ascii] at hl
    subst hl
    simpa using h

theorem zero_mem_dropLast {l : Bytes} {c : UInt8} (h : (0 : UInt8) ∈ l) (hl : endsWith l [c] = true) (hc : c ≠ 0) :
    (0 : UInt8) ∈ l.dropLast := by
  obtain ⟨front, rfl⟩ := List.isSuffixOf_iff_suffix.mp hl
  rw [List.dropLast_concat]
  simpa [hc.symm] using h

theorem zero_mem_cells {line : Bytes} (h : (0 : UInt8) ∈ line) : ∃ cell ∈ splitTableCells line, (0 : UInt8) ∈ cell := by
  have hsplit : ∀ raw : Bytes, (0 : UInt8) ∈ raw →
      ∃ cell ∈ (splitWith (ascii "|") (raw.length + 1) raw).map stringTrim, (0 : UInt8) ∈ cell := by
    intro raw hraw
    obtain ⟨front, last, hfront⟩ := Http.exists_last 124 (raw.takeWhile (· ≠ 0))
    have hparts := Http.splitWith_parts raw hfront
    have hzero : (0 : UInt8) ∈ last ++ raw.dropWhile (· ≠ 0) :=
      List.mem_append_right _ (mem_dropWhile hraw (by decide))
    refine ⟨_, List.mem_map_of_mem ?_, zero_mem_trim hzero⟩
    change _ ∈ splitWith [124] _ _
    rw [hparts]
    simp
  have htrim := zero_mem_trim h
  unfold splitTableCells
  dsimp only
  rw [if_neg (List.ne_nil_of_mem htrim)]
  refine hsplit _ ?_
  have hinner : (0 : UInt8) ∈ (if startsWith (stringTrim line) (ascii "|") = true then (stringTrim line).tail
      else stringTrim line) := by
    split
    next hbar => exact zero_mem_tail htrim hbar
    next => exact htrim
  generalize (if startsWith (stringTrim line) (ascii "|") = true then (stringTrim line).tail
    else stringTrim line) = raw at hinner ⊢
  split
  next hbar => exact zero_mem_dropLast hinner hbar (by decide)
  next => exact hinner

theorem isDashes_zero {cell : Bytes} (h : (0 : UInt8) ∈ cell) : isDashes cell = false := by
  have htrim := zero_mem_trim h
  by_contra hdashes
  simp only [isDashes, Bool.not_eq_false, Bool.and_eq_true, List.all_eq_true] at hdashes
  exact absurd (hdashes.1.2 0 htrim) (by decide)

theorem isHorizontalRule_zero {line : Bytes} (h : (0 : UInt8) ∈ line) : isHorizontalRule line = false := by
  have htrim := zero_mem_trim h
  unfold isHorizontalRule
  dsimp only
  split
  next => rfl
  next ch rest heq =>
    by_contra hrule
    simp only [Bool.not_eq_false, Bool.and_eq_true, List.all_eq_true, Bool.or_eq_true, decide_eq_true_eq] at hrule
    obtain ⟨⟨⟨-, hch⟩, hall⟩, -⟩ := hrule
    have hzero := hall 0 htrim
    rcases hzero with hzero | hzero
    · subst hzero
      revert hch
      decide
    · exact absurd hzero (by decide)

/-- A line with a zero byte is a fence, or it says something. -/
theorem plays_zero {line : Bytes} (h : (0 : UInt8) ∈ line) (mode : Mode) :
    if isFence line = true then (plays mode line).1 = .fence else (plays mode line).1.IsContent := by
  have hblank : stringTrim line ≠ [] := List.ne_nil_of_mem (zero_mem_trim h)
  have hseparator : isTableSeparatorLine line = false := by
    obtain ⟨cell, hcell, hzero⟩ := zero_mem_cells h
    have hall : (splitTableCells line).all isDashes = false :=
      List.all_eq_false.mpr ⟨cell, hcell, by simp [isDashes_zero hzero]⟩
    rw [isTableSeparatorLine, hall, Bool.and_false]
  have htext : (playsText line).1.IsContent := by
    unfold playsText
    rw [if_neg hblank, isHorizontalRule_zero h]
    simp only [Bool.false_eq_true, if_false]
    split_ifs <;> decide
  unfold plays
  by_cases hfence : isFence line = true
  · rw [if_pos hfence]
    cases mode <;> exact congrArg Prod.fst (if_pos hfence)
  · rw [if_neg hfence]
    cases mode with
    | code => simp [hfence, hblank, Role.IsContent]
    | text => simpa [hfence] using htext
    | header => simpa [hfence, hseparator] using htext
    | table =>
      simp only [hfence, Bool.false_eq_true, if_false]
      split
      · exact .inl rfl
      · exact htext

theorem plays_zero_fence {line : Bytes} (h : (0 : UInt8) ∈ line) {mode : Mode} :
    (plays mode line).1 = .fence ↔ isFence line = true := by
  have hplays := plays_zero h mode
  by_cases hfence : isFence line = true
  · rw [if_pos hfence] at hplays
    exact iff_of_true hplays hfence
  · rw [if_neg hfence] at hplays
    refine iff_of_false ?_ hfence
    intro heq
    rw [heq] at hplays
    exact absurd hplays (by decide)

theorem plays_zero_content {line : Bytes} (h : (0 : UInt8) ∈ line) {mode : Mode}
    (hfence : (plays mode line).1 ≠ .fence) : (plays mode line).1.IsContent := by
  have hplays := plays_zero h mode
  rwa [if_neg (fun hisFence => hfence ((plays_zero_fence h).mpr hisFence))] at hplays

/-- Behind a zero byte nothing changes what a line begins with. -/
theorem isFence_zero (front behind : Bytes) : isFence (dropCr (front ++ 0 :: behind)) = isFence front := by
  have hcut : ∃ behind', dropCr (front ++ 0 :: behind) = front ++ 0 :: behind' := by
    unfold dropCr
    split
    next h =>
      rcases List.eq_nil_or_concat behind with rfl | ⟨b, c, rfl⟩
      · obtain ⟨f, hf⟩ := List.isSuffixOf_iff_suffix.mp h
        have hlast := congrArg List.getLast? hf
        simp at hlast
      · refine ⟨b, ?_⟩
        rw [List.concat_eq_append, ← List.cons_append, ← List.append_assoc, List.dropLast_concat]
    next => exact ⟨behind, rfl⟩
  obtain ⟨behind', hcut⟩ := hcut
  rw [hcut]
  match front with
  | [] => rfl
  | [a] => simp [isFence, startsWith, ascii, List.isPrefixOf]
  | [a, b] => simp [isFence, startsWith, ascii, List.isPrefixOf]
  | a :: b :: c :: rest => simp [isFence, startsWith, ascii, List.isPrefixOf]

theorem zero_mem_dropCr (front behind : Bytes) : (0 : UInt8) ∈ dropCr (front ++ 0 :: behind) := by
  unfold dropCr
  split
  next h => exact zero_mem_dropLast (by simp) h (by decide)
  next => simp

theorem mem_of_mem_part {sep c : UInt8} {text part : Bytes} (hpart : part ∈ text.splitOn sep) (hc : c ∈ part) :
    c ∈ text := by
  induction text generalizing part with
  | nil =>
    simp only [List.splitOn_nil, List.mem_singleton] at hpart
    rw [hpart] at hc
    cases hc
  | cons d text ih =>
    rw [Http.splitOn_cons] at hpart
    split at hpart
    · rcases List.mem_cons.mp hpart with rfl | hpart
      · cases hc
      · exact List.mem_cons_of_mem _ (ih hpart hc)
    · cases hparts : text.splitOn sep with
      | nil => exact absurd hparts (List.splitOn_ne_nil _ _)
      | cons p ps =>
        rw [hparts, List.modifyHead_cons] at hpart
        rcases List.mem_cons.mp hpart with rfl | hpart
        · rcases List.mem_cons.mp hc with rfl | hc
          · exact List.mem_cons_self
          · exact List.mem_cons_of_mem _ (ih (hparts ▸ List.mem_cons_self) hc)
        · exact List.mem_cons_of_mem _ (ih (hparts ▸ List.mem_cons_of_mem _ hpart) hc)

theorem mem_of_mem_dropCr {c : UInt8} {line : Bytes} (h : c ∈ dropCr line) : c ∈ line := by
  unfold dropCr at h
  split at h
  · exact List.dropLast_subset _ h
  · exact h

/-- The lines of a text and the last line that the code reads of it: all lines are read one by one, or the
first zero byte stands in a line and all that follows is read with that. -/
theorem lines_read (markdown : Bytes) :
    ∃ front last, splitWith [10] (markdown.length + 1) markdown = front ++ [last] ∧
      (∀ line ∈ front.map dropCr, (0 : UInt8) ∉ line) ∧
      (inputLines markdown = front.map dropCr ++ [dropCr last] ∧ (0 : UInt8) ∉ dropCr last ∨
        ∃ line more, inputLines markdown = front.map dropCr ++ line :: more ∧ (0 : UInt8) ∈ line ∧
          (0 : UInt8) ∈ dropCr last ∧ isFence (dropCr last) = isFence line) := by
  obtain ⟨front, last, hfront⟩ := Http.exists_last 10 (markdown.takeWhile (· ≠ 0))
  have hcut : markdown.takeWhile (· ≠ 0) ++ markdown.dropWhile (· ≠ 0) = markdown := List.takeWhile_append_dropWhile
  have hzero : (0 : UInt8) ∉ markdown.takeWhile (· ≠ 0) := fun h0 => by simpa using List.mem_takeWhile_imp h0
  have hparts := Http.splitWith_parts markdown hfront
  have hlines : markdown.splitOn 10 = front ++ ((markdown.dropWhile (· ≠ 0)).splitOn 10).modifyHead (last ++ ·) := by
    rw [← Http.splitOn_behind hfront, hcut]
  have hfree : ∀ part ∈ front ++ [last], (0 : UInt8) ∉ part := fun part hpart h0 =>
    hzero (mem_of_mem_part (hfront ▸ hpart) h0)
  refine ⟨front, _, hparts, ?_, ?_⟩
  · intro line hline h0
    obtain ⟨part, hpart, rfl⟩ := List.mem_map.mp hline
    exact hfree part (List.mem_append_left _ hpart) (mem_of_mem_dropCr h0)
  · rcases Http.dropWhile_zero markdown with hz | hz
    · refine .inl ⟨?_, ?_⟩
      · rw [inputLines, hlines, hz]
        simp
      · rw [hz, List.append_nil]
        exact fun h0 => hfree last (by simp) (mem_of_mem_dropCr h0)
    · obtain ⟨behind, hbehind⟩ := List.head?_eq_some_iff.mp hz
      cases hsplit : behind.splitOn 10 with
      | nil => exact absurd hsplit (List.splitOn_ne_nil _ _)
      | cons first more =>
        refine .inr ⟨dropCr (last ++ 0 :: first), more.map dropCr, ?_, zero_mem_dropCr _ _, ?_, ?_⟩
        · rw [inputLines, hlines, hbehind, Http.splitOn_cons, if_neg (by decide), hsplit]
          simp
        · rw [hbehind]
          exact zero_mem_dropCr _ _
        · rw [hbehind, isFence_zero, isFence_zero]

/-- Each line that says something is held once. -/
def State.HoldsOnce (s : State) (lines : List Bytes) : Prop :=
  ∀ n role, roleAt lines n = some role → role.IsContent → s.weight n = 1

/-- Without a zero byte only a fence behind a header loses a line. -/
theorem Account.holdsOnce_iff (h : Account s lines) (hzero : ∀ line ∈ lines, (0 : UInt8) ∉ line) :
    s.HoldsOnce lines ↔ NothingLost lines := by
  constructor
  · intro honce
    refine ⟨?_, ?_⟩
    · intro n hwaiting hfence
      have hlost := h.dropped n ⟨hwaiting, hfence⟩
      have hshown := honce n _ hwaiting (.inr rfl)
      omega
    · intro k hfirst
      obtain ⟨⟨line, hline, h0⟩, -⟩ := hfirst
      exact absurd h0 (hzero line (List.mem_of_getElem? hline))
  · intro hkept n role hrole hcontent
    refine h.shown n role hrole hcontent ?_
    intro hdropped
    obtain ⟨i, -, line, hline, h0⟩ := hkept.headers n hdropped.1 hdropped.2
    exact hzero line (List.mem_of_getElem? hline) h0

/-- The line with the first zero byte is read with all lines behind it. A fence loses them. -/
theorem Account.holdsOnce_zero (h : Account s front) (hfree : ∀ line ∈ front, (0 : UInt8) ∉ line)
    {line last : Bytes} (hline : (0 : UInt8) ∈ line) (hlast : (0 : UInt8) ∈ last) (hsame : isFence last = isFence line)
    (more : List Bytes) :
    (s.step env ⟨List.range' front.length (more.length + 1), last⟩).HoldsOnce (front ++ line :: more) ↔
      NothingLost (front ++ line :: more) := by
  have hstep := @step_processes env s h.tidy ⟨List.range' front.length (more.length + 1), last⟩
  have hfenceWeight := fun hfence => @fence_weight ⟨List.range' front.length (more.length + 1), last⟩ env s hfence
  generalize s.step env ⟨List.range' front.length (more.length + 1), last⟩ = t at hstep hfenceWeight ⊢
  rw [h.reads] at hstep
  have hat := roleAt_last front line more
  have hget : (front ++ line :: more)[front.length]? = some line := by simp
  have hold : ∀ n < front.length, roleAt (front ++ line :: more) n = roleAt front n := fun n hn => roleAt_append hn _
  have hfences : (plays (modeAfter front) last).1 = .fence ↔ (plays (modeAfter front) line).1 = .fence := by
    rw [plays_zero_fence hlast, plays_zero_fence hline, hsame]
  have hbefore : ∀ n < front.length, t.weight n + (if (plays (modeAfter front) last).1 = .fence ∧
      roleAt front n = some .waiting ∧ n + 1 = front.length then 1 else 0) = s.weight n := by
    intro n hn
    refine h.before hstep ?_
    intro hmem
    have hrange := List.mem_range'_1.mp hmem
    omega
  have hfreeAt : ∀ n < front.length, ∀ l, (front ++ line :: more)[n]? = some l → (0 : UInt8) ∉ l := by
    intro n hn l hl
    rw [List.getElem?_append_left hn] at hl
    exact hfree l (List.mem_of_getElem? hl)
  have hfirst : FirstZero (front ++ line :: more) front.length := ⟨⟨line, hget, hline⟩, hfreeAt⟩
  constructor
  · intro honce
    refine ⟨?_, ?_⟩
    · intro n hwaiting hfence
      by_cases hn : n < front.length
      · have hw := hbefore n hn
        have hone := honce n _ hwaiting (.inr rfl)
        rw [hold n hn] at hwaiting
        by_cases hnext : n + 1 < front.length
        · rw [hold _ hnext] at hfence
          have hzero := h.dropped n ⟨hwaiting, hfence⟩
          omega
        · have heq : n + 1 = front.length := by omega
          rw [heq, hat] at hfence
          rw [if_pos ⟨hfences.mpr (Option.some.inj hfence), hwaiting, heq⟩,
            h.shown n _ hwaiting (.inr rfl) (not_dropped_last heq)] at hw
          omega
      · exact ⟨front.length, by omega, line, hget, hline⟩
    · intro k hk hfence n hn role hrole hcontent
      have heq : k = front.length := by
        by_contra hne
        rcases Nat.lt_or_gt_of_ne hne with hlt | hlt
        · obtain ⟨⟨l, hl, h0⟩, -⟩ := hk
          exact hfreeAt k hlt l hl h0
        · exact hk.2 _ hlt line hget hline
      rw [heq, hat] at hfence
      have hle := hfenceWeight ((plays_zero_fence hlast).mp (hfences.mpr (Option.some.inj hfence))) n
      have hone := honce n role hrole hcontent
      rw [h.later n (by omega)] at hle
      omega
  · intro hkept n role hrole hcontent
    by_cases hn : n < front.length
    · have hw := hbefore n hn
      have hnever : roleAt (front ++ line :: more) n = some .waiting →
          roleAt (front ++ line :: more) (n + 1) ≠ some .fence := by
        intro hwaiting hfence
        obtain ⟨i, hi, l, hl, h0⟩ := hkept.headers n hwaiting hfence
        exact hfreeAt i (by omega) l hl h0
      rw [hold n hn] at hrole hnever
      have hshown : s.weight n = 1 := by
        refine h.shown n role hrole hcontent ?_
        intro hdropped
        have hlt := roleAt_isSome hdropped.2
        exact hnever hdropped.1 ((hold _ hlt).trans hdropped.2)
      rw [if_neg] at hw
      · omega
      · intro hall
        refine hnever hall.2.1 ?_
        rw [hall.2.2, hat, hfences.mp hall.1]
    · have hlt := roleAt_isSome hrole
      rw [List.length_append, List.length_cons] at hlt
      by_cases hfence : (plays (modeAfter front) last).1 = .fence
      · have hatFence := hat.trans (congrArg some (hfences.mp hfence))
        by_cases heq : n = front.length
        · rw [heq, hatFence] at hrole
          rw [← Option.some.inj hrole] at hcontent
          exact absurd hcontent (by decide)
        · exact absurd hcontent (hkept.fences _ hfirst hatFence n (by omega) role hrole)
      · have hmem : n ∈ List.range' front.length (more.length + 1) := List.mem_range'_1.mpr (by omega)
        rw [hstep.itself (plays_zero_content hlast hfence) n, h.later n (by omega)]
        exact (Nat.zero_add _).trans (List.count_eq_one_of_mem List.nodup_range' hmem)

/-- A highlighter that paints nothing, and a replacement that replaces nothing. -/
def plainEnv : Env :=
  ⟨fun _ text _ => text, fun code _ => escapeHtml code, fun code _ => ⟨[.text code], by simp [Markup.Token.render, escapeHtml_eq], rfl⟩⟩

end ToiLang.Markdown
