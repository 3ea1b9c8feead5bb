import ToiLang.Json.Grammar

namespace ToiLang

namespace Json

/-! The decoder reads what the grammar says, and gives an error for any other text. -/

section Run

variable {α β : Type} {p q : Parser} {a : α} {s s' message : Bytes} {H : TableHeap} {c : UInt8}

theorem bind_ok {m : Parse α} {f : α → Parse β} (h : m p = some (.ok (a, q))) : (m >>= f) p = f a q := by
  simp only [bind, StateT.bind, ExceptT.bind, ExceptT.mk, h, ExceptT.bindCont, Option.bind]

theorem bind_error {m : Parse α} {f : α → Parse β} (h : m p = some (.error message)) :
    (m >>= f) p = some (.error message) := by
  simp only [bind, StateT.bind, ExceptT.bind, ExceptT.mk, h, ExceptT.bindCont, Option.bind]
  rfl

theorem parseChar_run : parseChar c ⟨s, H⟩ =
    if (blanks s).head? = some c then some (.ok (true, ⟨(blanks s).tail, H⟩))
    else some (.ok (false, ⟨blanks s, H⟩)) := by
  change (if (blanks s).head? = some c then _ else _ : Parse Bool) ⟨blanks s, H⟩ = _
  split <;> rfl

theorem parseChar_hit (h : blanks s = c :: s') : parseChar c ⟨s, H⟩ = some (.ok (true, ⟨s', H⟩)) := by
  rw [parseChar_run, h]
  exact if_pos rfl

theorem parseChar_miss (h : (blanks s).head? ≠ some c) :
    parseChar c ⟨s, H⟩ = some (.ok (false, ⟨blanks s, H⟩)) := by
  rw [parseChar_run, if_neg h]

theorem modifyTable_ok {b : Nat} {f : Table → Option Table} {t : Table} (h : f (p.heap.tables b) = some t) :
    modifyTable b f p = some (.ok ((), { p with heap := p.heap.set b t })) := by
  unfold modifyTable
  rw [h]
  rfl

theorem blanks_blanks (s : Bytes) : blanks (blanks s) = blanks s := List.dropWhile_idempotent _ s

theorem blanks_length (s : Bytes) : (blanks s).length ≤ s.length := List.length_dropWhile_le ..

theorem cons_of_head? (h : s.head? = some c) : ∃ s', s = c :: s' := by
  cases s with
  | nil => cases h
  | cons d s =>
    cases h
    exact ⟨s, rfl⟩

end Run

/-- A part of the parser reads exactly what a grammar allows it to, in one way, and gives an error where
the grammar allows nothing. -/
inductive Exactly {α β : Type} (R : α → Bytes → Prop) (s : Bytes) (Done : α → Bytes → β → Parser → Prop)
    (result : Option (Except Bytes (β × Parser))) : Prop
  | reads {a : α} {rest : Bytes} {b : β} {p : Parser} (hread : ∀ a' rest', R a' rest' ↔ a' = a ∧ rest' = rest)
      (hlt : rest.length < s.length) (hresult : result = some (.ok (b, p))) (hdone : Done a rest b p) :
      Exactly R s Done result
  | fails (hnone : ∀ a rest, ¬ R a rest) {message : Bytes} (hresult : result = some (.error message)) :
      Exactly R s Done result

theorem Exactly.imp {α β : Type} {R R' : α → Bytes → Prop} {s s' : Bytes} {Done Done' : α → Bytes → β → Parser → Prop}
    {result : Option (Except Bytes (β × Parser))} (h : Exactly R s Done result)
    (hR : ∀ a rest, R' a rest ↔ R a rest) (hle : s.length ≤ s'.length)
    (hD : ∀ a rest b p, Done a rest b p → Done' a rest b p) : Exactly R' s' Done' result := by
  cases h with
  | reads hread hlt hresult hdone =>
    exact .reads (fun a rest => (hR a rest).trans (hread a rest)) (by omega) hresult (hD _ _ _ _ hdone)
  | fails hnone hresult => exact .fails (fun a rest h => hnone a rest ((hR a rest).mp h)) hresult

section Strings

variable {c : UInt8} {s s' str rest chars : Bytes} {sb : StringBuilder} {H : TableHeap} {turns : Nat}

theorem chars_quote : Chars (34 :: s) str rest ↔ str = [] ∧ rest = s := by
  constructor
  · intro h
    cases h with
    | close => exact ⟨rfl, rfl⟩
    | plain hquote => exact absurd rfl hquote
  · rintro ⟨rfl, rfl⟩
    exact .close _

theorem chars_nil : ¬ Chars [] str rest := fun h => by cases h

theorem codepointText_length (n : Int) : (codepointText n).length ≤ 3 := by
  unfold codepointText
  split_ifs <;> simp

theorem stringTurn_length (h : stringTurn c s = some (chars, s')) : chars.length + s'.length ≤ s.length + 1 ∧
    s'.length ≤ s.length := by
  unfold stringTurn at h
  split at h
  next =>
    cases h
    exact ⟨by simp, Nat.le_refl _⟩
  next esc s =>
    split_ifs at h with hback hu hlen
    · cases h
      have := codepointText_length (strtol16 (s.take 4))
      rw [List.length_drop, List.length_cons]
      omega
    · cases h
      rw [List.length_singleton, List.length_cons]
      omega
    · cases h
      rw [List.length_singleton, List.length_cons]
      omega

theorem stringTurn_plain (hc : c ≠ 92) : stringTurn c s = some ([c], s) := by
  unfold stringTurn
  split
  next => rfl
  next => rw [if_neg hc]

theorem stringTurn_escape {esc : UInt8} (hu : esc ≠ 117) : stringTurn 92 (esc :: s) = some ([escaped esc], s) := by
  unfold stringTurn
  dsimp only
  rw [if_pos rfl, if_neg hu]

theorem stringTurn_codepoint : stringTurn 92 (117 :: s) =
    if s.length < 4 then none else some (codepointText (strtol16 (s.take 4)), s.drop 4) := rfl

/-- A string goes on with what one turn of the loop reads. -/
theorem chars_turn (hc : c ≠ 34) : Chars (c :: s) str rest ↔
    ∃ chars s' more, stringTurn c s = some (chars, s') ∧ str = chars ++ more ∧ Chars s' more rest := by
  constructor
  · intro h
    cases h with
    | close => exact absurd rfl hc
    | plain _ hback h => exact ⟨_, _, _, stringTurn_plain hback, rfl, h⟩
    | escape hu h => exact ⟨_, _, _, stringTurn_escape hu, rfl, h⟩
    | codepoint hdigits h =>
      refine ⟨_, _, _, ?_, rfl, h⟩
      rw [stringTurn_codepoint, List.length_append, if_neg (by omega), List.take_left' hdigits,
        List.drop_left' hdigits]
  · rintro ⟨chars, s', more, hturn, rfl, h⟩
    by_cases hback : c = 92
    · subst hback
      cases s with
      | nil =>
        cases hturn
        exact absurd h chars_nil
      | cons esc s =>
        by_cases hu : esc = 117
        · subst hu
          rw [stringTurn_codepoint] at hturn
          split at hturn
          next => cases hturn
          next hlen =>
            cases hturn
            have hread := Chars.codepoint (List.length_take_of_le (Nat.not_lt.mp hlen)) h
            rwa [List.take_append_drop] at hread
        · rw [stringTurn_escape hu] at hturn
          cases hturn
          exact .escape hu h
    · rw [stringTurn_plain hback] at hturn
      cases hturn
      exact .plain hc hback h

theorem appendChars {chars : Bytes} (h : sb.Sound) (hfits : sb.buffer.length + chars.length ≤ 2 ^ 30 - 1) :
    ∃ sb', chars.foldlM (fun sb c => sbAppend sb [c]) sb = some sb' ∧ sb'.buffer = sb.buffer ++ chars ∧ sb'.Sound := by
  induction chars generalizing sb with
  | nil => exact ⟨sb, rfl, (List.append_nil _).symm, h⟩
  | cons c chars ih =>
    rw [List.length_cons] at hfits
    obtain ⟨sb₁, happend, hbuffer, hsound⟩ := sbAppend_fits h (show sb.buffer.length + [c].length ≤ 2 ^ 30 - 1 by
      rw [List.length_singleton]
      omega)
    have hlen : sb₁.buffer.length = sb.buffer.length + 1 := by
      rw [hbuffer, List.length_append, List.length_singleton]
    obtain ⟨sb', hfold, hbuffer', hsound'⟩ := ih hsound (by omega)
    refine ⟨sb', ?_, by rw [hbuffer', hbuffer, List.append_assoc]; rfl, hsound'⟩
    rw [List.foldlM_cons, happend]
    exact hfold

theorem stringLoop_invalid (hc : c ≠ 34) (hturn : stringTurn c s = none) :
    stringLoop (turns + 1) sb ⟨c :: s, H⟩ = some (.error (ascii "Invalid unicode escape")) := by
  change (if c = 34 then _ else _ : Parse StringBuilder) ⟨c :: s, H⟩ = _
  rw [if_neg hc, hturn]
  rfl

theorem stringLoop_turn {sb' : StringBuilder} (hc : c ≠ 34) (hturn : stringTurn c s = some (chars, s'))
    (happend : chars.foldlM (fun sb c => sbAppend sb [c]) sb = some sb') :
    stringLoop (turns + 1) sb ⟨c :: s, H⟩ = stringLoop turns sb' ⟨s', H⟩ := by
  change (if c = 34 then _ else _ : Parse StringBuilder) ⟨c :: s, H⟩ = _
  rw [if_neg hc, hturn]
  dsimp only
  rw [happend]
  rfl

/-- The loop of `parse_string` ends at the closing quote, with an error, or at the end of the text. -/
theorem stringLoop_spec (hturns : s.length < turns) (hsb : sb.Sound)
    (hsize : sb.buffer.length + s.length ≤ 2 ^ 30 - 1) :
    Exactly (Chars s) s (fun str rest sb' p => sb'.buffer = sb.buffer ++ str ∧ p = ⟨34 :: rest, H⟩)
        (stringLoop turns sb ⟨s, H⟩) ∨
      (∀ str rest, ¬ Chars s str rest) ∧ ∃ sb', stringLoop turns sb ⟨s, H⟩ = some (.ok (sb', ⟨[], H⟩)) := by
  induction turns generalizing s sb with
  | zero => omega
  | succ turns ih =>
    cases s with
    | nil => exact .inr ⟨fun _ _ => chars_nil, sb, rfl⟩
    | cons c s =>
      rw [List.length_cons] at hturns hsize
      by_cases hc : c = 34
      · subst hc
        exact .inl (.reads (fun _ _ => chars_quote) (by simp) rfl ⟨(List.append_nil _).symm, rfl⟩)
      · cases hturn : stringTurn c s with
        | none =>
          refine .inl (.fails (fun str rest h => ?_) (stringLoop_invalid hc hturn))
          obtain ⟨chars, s', more, hsome, -⟩ := (chars_turn hc).mp h
          rw [hturn] at hsome
          cases hsome
        | some turn =>
          obtain ⟨chars, s'⟩ := turn
          obtain ⟨hsum, hle⟩ := stringTurn_length hturn
          obtain ⟨sb₁, happend, hbuffer, hsb₁⟩ := appendChars hsb (show sb.buffer.length + chars.length ≤ _ by omega)
          have hlen : sb₁.buffer.length = sb.buffer.length + chars.length := by
            rw [hbuffer, List.length_append]
          have hiff (str rest : Bytes) : Chars (c :: s) str rest ↔ ∃ more, str = chars ++ more ∧ Chars s' more rest := by
            rw [chars_turn hc, hturn]
            constructor
            · rintro ⟨_, _, more, heq, hstr, h⟩
              cases heq
              exact ⟨more, hstr, h⟩
            · rintro ⟨more, hstr, h⟩
              exact ⟨_, _, more, rfl, hstr, h⟩
          rw [stringLoop_turn hc hturn happend]
          rcases ih (show s'.length < turns by omega) hsb₁ (by omega) with hspec | ⟨hnone, hend⟩
          · left
            cases hspec with
            | @reads str rest b p hread hlt hresult hdone =>
              refine .reads (a := chars ++ str) (fun str' rest' => ?_) ?_ hresult ⟨?_, hdone.2⟩
              · rw [hiff]
                constructor
                · rintro ⟨more, rfl, h⟩
                  obtain ⟨rfl, rfl⟩ := (hread _ _).mp h
                  exact ⟨rfl, rfl⟩
                · rintro ⟨rfl, rfl⟩
                  exact ⟨_, rfl, (hread _ _).mpr ⟨rfl, rfl⟩⟩
              · rw [List.length_cons]
                omega
              · rw [hdone.1, hbuffer, List.append_assoc]
            | fails hnone hresult =>
              refine .fails (fun str rest h => ?_) hresult
              obtain ⟨more, -, h⟩ := (hiff _ _).mp h
              exact hnone _ _ h
          · refine .inr ⟨fun str rest h => ?_, hend⟩
            obtain ⟨more, -, h⟩ := (hiff _ _).mp h
            exact hnone _ _ h

theorem parseString_spec (hsize : s.length ≤ 2 ^ 30 - 1) :
    Exactly (Quoted s) s (fun str rest b p => b = str ∧ p = ⟨rest, H⟩) (parseString ⟨s, H⟩) := by
  have hle := blanks_length s
  unfold parseString
  by_cases hquote : (blanks s).head? = some 34
  · obtain ⟨s', hs⟩ := cons_of_head? hquote
    rw [hs, List.length_cons] at hle
    have hiff (str rest : Bytes) : Quoted s str rest ↔ Chars s' str rest := by
      constructor
      · rintro ⟨s'', hs', h⟩
        rw [hs] at hs'
        cases hs'
        exact h
      · exact fun h => ⟨s', hs, h⟩
    rw [bind_ok (parseChar_hit hs)]
    simp only [Bool.not_true, Bool.false_eq_true, if_false]
    rw [bind_ok (a := (⟨s', H⟩ : Parser)) (q := ⟨s', H⟩) rfl]
    dsimp only
    rcases @stringLoop_spec s' sbInit H (s'.length + 1) (Nat.lt_succ_self _) sbInit_sound
        (by dsimp only [sbInit]; rw [List.length_nil]; omega) with hspec | ⟨hnone, sb', hend⟩
    · cases hspec with
      | @reads str rest b p hread hlt hresult hdone =>
        obtain ⟨hbuffer, rfl⟩ := hdone
        have hclose : blanks (34 :: rest) = 34 :: rest := rfl
        rw [bind_ok hresult, bind_ok (parseChar_hit hclose)]
        exact .reads (fun str' rest' => (hiff _ _).trans (hread _ _)) (by omega) rfl ⟨hbuffer, rfl⟩
      | fails hnone hresult =>
        rw [bind_error hresult]
        exact .fails (fun _ _ h => hnone _ _ ((hiff _ _).mp h)) rfl
    · rw [bind_ok hend, bind_ok (parseChar_miss (by decide))]
      exact .fails (fun _ _ h => hnone _ _ ((hiff _ _).mp h)) rfl
  · rw [bind_ok (parseChar_miss hquote)]
    refine .fails (fun str rest h => ?_) rfl
    obtain ⟨s', hs, -⟩ := h
    rw [hs] at hquote
    exact hquote rfl

end Strings

section Items

variable {α : Type} {Item : Bytes → α → Bytes → Prop} {Items : Bytes → List α → Bytes → Prop}

/-- The lists of items with commas between them. -/
def Commas (Item : Bytes → α → Bytes → Prop) (Items : Bytes → List α → Bytes → Prop) : Prop :=
  ∀ s items rest, Items s items rest ↔ ∃ item s', Item s item s' ∧
    (items = [item] ∧ rest = s' ∨ ∃ s'' more, blanks s' = 44 :: s'' ∧ items = item :: more ∧ Items s'' more rest)

/-- The items are read up to where no comma follows. -/
def Whole (Items : Bytes → List α → Bytes → Prop) (s : Bytes) (items : List α) (rest : Bytes) : Prop :=
  Items s items rest ∧ (blanks rest).head? ≠ some 44

theorem Commas.none (hc : Commas Item Items) {s : Bytes} (hitem : ∀ item rest, ¬ Item s item rest)
    (items : List α) (rest : Bytes) : ¬ Whole Items s items rest := by
  rintro ⟨h, -⟩
  obtain ⟨item, s', hread, -⟩ := (hc s items rest).mp h
  exact hitem item s' hread

/-- Where blanks make no difference to an item, they make none to the items. -/
theorem Commas.congr (hc : Commas Item Items) {s t : Bytes}
    (hitem : ∀ item rest, Item s item rest ↔ Item t item rest) (items : List α) (rest : Bytes) :
    Items s items rest ↔ Items t items rest := by
  rw [hc, hc]
  simp only [hitem]

/-- What a loop does behind an item. -/
theorem Commas.next (hc : Commas Item Items) {s s₁ : Bytes} {item : α} {H : TableHeap} {loop : Parse Unit}
    {Done : List α → Bytes → Unit → Parser → Prop}
    (hitem : ∀ item' rest, Item s item' rest ↔ item' = item ∧ rest = s₁) (hlt : s₁.length < s.length)
    (hlast : Done [item] s₁ () ⟨blanks s₁, H⟩)
    (hmore : ∀ s₂, blanks s₁ = 44 :: s₂ →
      Exactly (Whole Items s₂) s₂ (fun items rest b p => Done (item :: items) rest b p) (loop ⟨s₂, H⟩)) :
    Exactly (Whole Items s) s Done ((parseChar 44 >>= fun b => if b = true then loop else pure ()) ⟨s₁, H⟩) := by
  have hle := blanks_length s₁
  by_cases hcomma : (blanks s₁).head? = some 44
  · obtain ⟨s₂, hs₂⟩ := cons_of_head? hcomma
    rw [hs₂, List.length_cons] at hle
    have hiff (items : List α) (rest : Bytes) : Whole Items s items rest ↔
        ∃ more, items = item :: more ∧ Whole Items s₂ more rest := by
      constructor
      · rintro ⟨h, hend⟩
        obtain ⟨item', s', hread, ⟨-, rfl⟩ | ⟨s'', more, hs'', rfl, h⟩⟩ := (hc _ _ _).mp h
        · rw [((hitem _ _).mp hread).2] at hend
          exact absurd hcomma hend
        · obtain ⟨rfl, rfl⟩ := (hitem _ _).mp hread
          rw [hs₂] at hs''
          cases hs''
          exact ⟨more, rfl, h, hend⟩
      · rintro ⟨more, rfl, h, hend⟩
        exact ⟨(hc _ _ _).mpr ⟨item, s₁, (hitem _ _).mpr ⟨rfl, rfl⟩, .inr ⟨s₂, more, hs₂, rfl, h⟩⟩, hend⟩
    rw [bind_ok (parseChar_hit hs₂), if_pos rfl]
    cases hmore s₂ hs₂ with
    | @reads more rest b p hread hlt' hresult hdone =>
      refine .reads (a := item :: more) (fun items rest' => ?_) (by omega) hresult hdone
      rw [hiff]
      constructor
      · rintro ⟨more', rfl, h⟩
        obtain ⟨rfl, rfl⟩ := (hread _ _).mp h
        exact ⟨rfl, rfl⟩
      · rintro ⟨rfl, rfl⟩
        exact ⟨more, rfl, (hread _ _).mpr ⟨rfl, rfl⟩⟩
    | fails hnone hresult =>
      refine .fails (fun items rest h => ?_) hresult
      obtain ⟨more, -, h⟩ := (hiff _ _).mp h
      exact hnone _ _ h
  · rw [bind_ok (parseChar_miss hcomma), if_neg (by decide)]
    refine .reads (a := [item]) (fun items rest => ?_) hlt rfl hlast
    constructor
    · rintro ⟨h, -⟩
      obtain ⟨item', s', hread, ⟨rfl, rfl⟩ | ⟨s'', more, hs'', -⟩⟩ := (hc _ _ _).mp h
      · obtain ⟨rfl, rfl⟩ := (hitem _ _).mp hread
        exact ⟨rfl, rfl⟩
      · rw [((hitem _ _).mp hread).2] at hs''
        exact absurd (congrArg List.head? hs'') hcomma
    · rintro ⟨rfl, rfl⟩
      exact ⟨(hc _ _ _).mpr ⟨item, _, (hitem _ _).mpr ⟨rfl, rfl⟩, .inl ⟨rfl, rfl⟩⟩, hcomma⟩

end Items

section Blanks

variable {s t rest key : Bytes} {tree : Tree}

theorem reads_congr (h : blanks s = blanks t) : Reads s tree rest ↔ Reads t tree rest := by
  rw [reads_iff, reads_iff, h]

theorem reads_shape {c : UInt8} {s' : Bytes} (hs : blanks s = c :: s') :
    Reads s tree rest ↔ Shape c s' tree rest := by
  rw [reads_iff]
  constructor
  · rintro ⟨d, t, heq, h⟩
    rw [hs] at heq
    cases heq
    exact h
  · exact fun h => ⟨c, s', hs, h⟩

theorem keyed_congr (h : blanks s = blanks t) : Keyed s key rest ↔ Keyed t key rest := by
  unfold Keyed Quoted
  rw [h]

theorem shape_closing {c : UInt8} (hc : c = 93 ∨ c = 125) : ¬ Shape c s tree rest := by
  have htrue : ascii "true" = [116, 114, 117, 101] := rfl
  have hfalse : ascii "false" = [102, 97, 108, 115, 101] := rfl
  have hnull : ascii "null" = [110, 117, 108, 108] := rfl
  intro h
  unfold Shape at h
  rcases hc with rfl | rfl
  · rw [if_neg (by decide), if_neg (by decide), if_neg (by decide), if_neg (by decide)] at h
    rcases h with ⟨b, -, h⟩ | ⟨-, h⟩
    · cases b
      · simp [hfalse] at h
      · simp [htrue] at h
    · simp [hnull] at h
  · rw [if_neg (by decide), if_neg (by decide), if_neg (by decide), if_neg (by decide)] at h
    rcases h with ⟨b, -, h⟩ | ⟨-, h⟩
    · cases b
      · simp [hfalse] at h
      · simp [htrue] at h
    · simp [hnull] at h

theorem readsElements_commas : Commas Reads ReadsElements := by
  intro s items rest
  constructor
  · intro h
    cases h with
    | last h => exact ⟨_, _, h, .inl ⟨rfl, rfl⟩⟩
    | more h hs' hmore => exact ⟨_, _, h, .inr ⟨_, _, hs', rfl, hmore⟩⟩
  · rintro ⟨item, s', h, ⟨rfl, rfl⟩ | ⟨s'', more, hs'', rfl, hmore⟩⟩
    · exact .last h
    · exact .more h hs'' hmore

/-- A text starts with a member. -/
def ReadsMember (s : Bytes) (member : Bytes × Tree) (rest : Bytes) : Prop :=
  ∃ s', Keyed s member.1 s' ∧ Reads s' member.2 rest

/-- Behind the one string that the text starts with, a key is that string and a colon. -/
theorem keyed_iff {key s₁ : Bytes} (hread : ∀ str rest, Quoted (blanks s) str rest ↔ str = key ∧ rest = s₁)
    (key' rest : Bytes) : Keyed s key' rest ↔ key' = key ∧ blanks s₁ = 58 :: rest := by
  rw [keyed_congr (blanks_blanks s).symm]
  constructor
  · rintro ⟨s', hquoted, hs'⟩
    obtain ⟨rfl, rfl⟩ := (hread _ _).mp hquoted
    exact ⟨rfl, hs'⟩
  · rintro ⟨rfl, hs'⟩
    exact ⟨s₁, (hread _ _).mpr ⟨rfl, rfl⟩, hs'⟩

/-- Behind the colon a member is what the text goes on with. -/
theorem readsMember_iff {key s₁ s₂ : Bytes}
    (hkeyed : ∀ key' rest, Keyed s key' rest ↔ key' = key ∧ blanks s₁ = 58 :: rest) (hs₂ : blanks s₁ = 58 :: s₂)
    (member : Bytes × Tree) (rest : Bytes) :
    ReadsMember s member rest ↔ member.1 = key ∧ Reads s₂ member.2 rest := by
  constructor
  · rintro ⟨s', hkey, h⟩
    obtain ⟨heq, hs'⟩ := (hkeyed _ _).mp hkey
    rw [hs₂] at hs'
    cases hs'
    exact ⟨heq, h⟩
  · rintro ⟨heq, h⟩
    exact ⟨s₂, (hkeyed _ _).mpr ⟨heq, hs₂⟩, h⟩

theorem readsMembers_commas : Commas ReadsMember ReadsMembers := by
  intro s items rest
  constructor
  · intro h
    cases h with
    | last hkey h => exact ⟨_, _, ⟨_, hkey, h⟩, .inl ⟨rfl, rfl⟩⟩
    | more hkey h hs' hmore => exact ⟨_, _, ⟨_, hkey, h⟩, .inr ⟨_, _, hs', rfl, hmore⟩⟩
  · rintro ⟨item, s', ⟨s₁, hkey, h⟩, ⟨rfl, rfl⟩ | ⟨s'', more, hs'', rfl, hmore⟩⟩
    · exact .last hkey h
    · exact .more hkey h hs'' hmore

end Blanks

section Values

variable {hash : Bytes → UInt32} {parse : Parse Value} {n turns : Nat} {s s' : Bytes} {H₀ H : TableHeap}

/-- What is left, and a new value that is made as the tree says. -/
def Makes (hash : Bytes → UInt32) (H : TableHeap) (tree : Tree) (rest : Bytes) (w : Value) (p : Parser) : Prop :=
  p.rest = rest ∧ Made hash Stands H p.heap tree w

/-- A parser of the values of texts that are shorter than `n`. -/
def ParsesBelow (hash : Bytes → UInt32) (n : Nat) (parse : Parse Value) : Prop :=
  ∀ s H, s.length < n → Exactly (Reads s) s (Makes hash H) (parse ⟨s, H⟩)

theorem elementsLoop_spec (hparse : ParsesBelow hash n parse) {done : List Tree} (hturns : s.length < turns)
    (hn : s.length < n) (hf : Filled hash Stands H₀ H (Tree.array done).at)
    (hl : Lined hash (H.tables H₀.next) done) (hsize : done.length + s.length < 2 ^ 31) :
    Exactly (Whole ReadsElements s) s
      (fun elements rest _ p => p.rest = blanks rest ∧ Filled hash Stands H₀ p.heap (Tree.array (done ++ elements)).at)
      (elementsLoop parse H₀.next turns (done.length + 1) ⟨s, H⟩) := by
  induction turns generalizing s done H with
  | zero => omega
  | succ turns ih =>
    unfold elementsLoop
    cases hparse s H hn with
    | fails hnone hresult =>
      rw [bind_error hresult]
      exact .fails (readsElements_commas.none hnone) rfl
    | @reads tree s₁ w p hread hlt hresult hdone =>
      obtain ⟨rest, H₁⟩ := p
      obtain ⟨rfl, hmade⟩ := hdone
      change rest.length < s.length at hlt
      obtain ⟨t', ht', hl', hf'⟩ := filled_element hf hmade hl (by omega)
      have hmodify : modifyTable H₀.next (fun t => some ((tableSetArray t ((done.length + 1 : Nat) : Int) w).getD t))
          ⟨rest, H₁⟩ = some (.ok ((), ⟨rest, H₁.set H₀.next t'⟩)) := modifyTable_ok (congrArg some ht')
      rw [bind_ok hresult, bind_ok hmodify]
      refine readsElements_commas.next hread hlt ⟨rfl, hf'⟩ fun s₂ hs₂ => ?_
      have hle := blanks_length rest
      rw [hs₂, List.length_cons] at hle
      have hlen : (done ++ [tree]).length = done.length + 1 := by
        rw [List.length_append, List.length_singleton]
      have hnext := @ih s₂ (H₁.set H₀.next t') (done ++ [tree]) (by omega) (by omega) hf'
        (by rw [TableHeap.set_self]; exact hl') (by omega)
      rw [hlen] at hnext
      simpa only [List.append_assoc, List.singleton_append] using hnext

theorem membersLoop_spec (hparse : ParsesBelow hash n parse) {done : List (Bytes × Tree)} (hturns : s.length < turns)
    (hn : s.length < n) (hn' : n ≤ 2 ^ 30) (hf : Filled hash Stands H₀ H (Tree.object done).at)
    (hempty : (H.tables H₀.next).array = []) :
    Exactly (Whole ReadsMembers s) s
      (fun members rest _ p => p.rest = blanks rest ∧ Filled hash Stands H₀ p.heap (Tree.object (done ++ members)).at)
      (membersLoop hash parse H₀.next turns ⟨s, H⟩) := by
  induction turns generalizing s done H with
  | zero => omega
  | succ turns ih =>
    have hle := blanks_length s
    unfold membersLoop
    rw [bind_ok (a := ()) (q := ⟨blanks s, H⟩) rfl]
    cases @parseString_spec (blanks s) H (by omega) with
    | fails hnone hresult =>
      rw [bind_error hresult]
      refine .fails (readsMembers_commas.none ?_) rfl
      rintro member rest ⟨s', hkey, -⟩
      obtain ⟨s'', hquoted, -⟩ := (keyed_congr (blanks_blanks s).symm).mp hkey
      exact hnone _ _ hquoted
    | @reads key s₁ b p hread hlt hresult hdone =>
      obtain ⟨rfl, rfl⟩ := hdone
      rw [bind_ok hresult]
      have hkeyed := keyed_iff hread
      have hle₁ := blanks_length s₁
      by_cases hcolon : (blanks s₁).head? = some 58
      · obtain ⟨s₂, hs₂⟩ := cons_of_head? hcolon
        rw [hs₂, List.length_cons] at hle₁
        rw [bind_ok (parseChar_hit hs₂)]
        simp only [Bool.not_true, Bool.false_eq_true, if_false]
        have hmember := readsMember_iff hkeyed hs₂
        cases hparse s₂ H (by omega) with
        | fails hnone hresult =>
          rw [bind_error hresult]
          exact .fails (readsMembers_commas.none fun member rest h => hnone _ _ ((hmember _ _).mp h).2) rfl
        | @reads tree s₃ w p hread₃ hlt₃ hresult₃ hdone₃ =>
          obtain ⟨rest, H₁⟩ := p
          obtain ⟨rfl, hmade⟩ := hdone₃
          change rest.length < s₂.length at hlt₃
          obtain ⟨t', ht', hempty', hf'⟩ := filled_member hf hmade hempty b
          rw [bind_ok hresult₃, bind_ok (modifyTable_ok ht')]
          have hshort : rest.length < s.length := by omega
          refine @Commas.next _ _ _ readsMembers_commas _ _ (b, tree) _ _ _ (fun member rest' => ?_) hshort ⟨rfl, hf'⟩
            fun s₄ hs₄ => ?_
          · rw [hmember, hread₃, Prod.ext_iff, and_assoc]
          · have hle₃ := blanks_length rest
            rw [hs₄, List.length_cons] at hle₃
            have hnext := @ih s₄ (H₁.set H₀.next t') (done ++ [(b, tree)]) (by omega) (by omega) hf'
              (by rw [TableHeap.set_self]; exact hempty')
            simpa only [List.append_assoc, List.singleton_append] using hnext
      · rw [bind_ok (parseChar_miss hcolon)]
        refine .fails (readsMembers_commas.none ?_) rfl
        rintro member rest ⟨s', hkey, -⟩
        exact hcolon (congrArg List.head? ((hkeyed _ _).mp hkey).2)

/-- The one constructor of a tree for a list of items, behind the opening bracket. -/
theorem parseTable_spec {α : Type} {Item : Bytes → α → Bytes → Prop} {Items : Bytes → List α → Bytes → Prop}
    {make : List α → Tree} {opening closing : UInt8} {loop : Nat → Nat → Parse Unit}
    (hc : Commas Item Items) (hstart : ∀ s item rest, Item s item rest → ∃ c s', blanks s = c :: s' ∧ c ≠ closing)
    (hblanks : ∀ s t item rest, blanks s = blanks t → Item s item rest → Item t item rest)
    (hclosing : closing ≠ 44) (hs : blanks s = opening :: s')
    (hempty : Made hash Stands H H.newTable (make []) (.table H.next))
    (hloop : Exactly (Whole Items (blanks s')) (blanks s')
      (fun items rest _ p => p.rest = blanks rest ∧ Made hash Stands H p.heap (make items) (.table H.next))
      (loop H.next ((blanks s').length + 1) ⟨blanks s', H.newTable⟩)) :
    Exactly (fun tree rest => tree = make [] ∧ blanks s' = closing :: rest ∨
        ∃ items s'', tree = make items ∧ Items s' items s'' ∧ blanks s'' = closing :: rest)
      s (Makes hash H) (parseTable opening closing loop ⟨s, H⟩) := by
  have hle := blanks_length s
  have hle' := blanks_length s'
  rw [hs, List.length_cons] at hle
  have hitems := hc.congr fun item rest =>
    (⟨hblanks _ _ item rest (blanks_blanks s').symm, hblanks _ _ item rest (blanks_blanks s')⟩ :
      Item s' item rest ↔ Item (blanks s') item rest)
  have hnone (hend : ∀ c r, blanks s' = c :: r → c = closing) (items : List α) (rest : Bytes) :
      ¬ Items s' items rest := by
    intro h
    obtain ⟨item, s'', hitem, -⟩ := (hc _ _ _).mp h
    obtain ⟨c, r, hcr, hne⟩ := hstart _ _ _ hitem
    exact hne (hend c r hcr)
  unfold parseTable
  rw [bind_ok (parseChar_hit hs)]
  simp only [Bool.not_true, Bool.false_eq_true, if_false]
  rw [bind_ok (a := H.next) (q := ⟨s', H.newTable⟩) rfl, bind_ok (a := ()) (q := ⟨blanks s', H.newTable⟩) rfl,
    bind_ok (a := (⟨blanks s', H.newTable⟩ : Parser)) (q := ⟨blanks s', H.newTable⟩) rfl]
  dsimp only
  cases hb : blanks s' with
  | nil =>
    rw [if_neg fun h => h.1 rfl, bind_ok (parseChar_miss fun h => by cases h)]
    refine .fails ?_ rfl
    rintro tree rest (⟨-, h⟩ | ⟨items, s'', -, h, -⟩)
    · cases h
    · refine hnone (fun c r hcr => ?_) items s'' h
      rw [hb] at hcr
      cases hcr
  | cons c r =>
    have hbb : blanks (c :: r) = c :: r := by rw [← hb, blanks_blanks]
    rw [hb] at hle' hloop hitems
    by_cases hcl : c = closing
    · subst hcl
      rw [if_neg fun h => h.2 rfl, bind_ok (parseChar_hit hbb)]
      rw [List.length_cons] at hle'
      refine .reads (a := make []) (fun tree rest => ?_) (show r.length < s.length by omega) rfl ⟨rfl, hempty⟩
      constructor
      · rintro (⟨rfl, h⟩ | ⟨items, s'', -, h, -⟩)
        · cases h
          exact ⟨rfl, rfl⟩
        · refine absurd h (hnone (fun d r' hd => ?_) items s'')
          rw [hb] at hd
          cases hd
          rfl
      · rintro ⟨rfl, rfl⟩
        exact .inl ⟨rfl, rfl⟩
    · rw [if_pos ⟨List.cons_ne_nil _ _, fun h => hcl (Option.some.inj h)⟩]
      have hfirst (rest : Bytes) : c :: r ≠ closing :: rest := fun h => hcl (List.cons.inj h).1
      have hclosed {items : List α} {s'' rest : Bytes} (h : Items s' items s'') (hs'' : blanks s'' = closing :: rest) :
          Whole Items (c :: r) items s'' := by
        refine ⟨(hitems items s'').mp h, ?_⟩
        rw [hs'']
        exact fun heq => hclosing (Option.some.inj heq)
      cases hloop with
      | @reads items rest b p hread hlt hresult hdone =>
        obtain ⟨rest', H₁⟩ := p
        obtain ⟨hrest, hmade⟩ := hdone
        change rest' = blanks rest at hrest
        subst hrest
        have hlerest := blanks_length rest
        rw [bind_ok hresult]
        by_cases hend : (blanks rest).head? = some closing
        · obtain ⟨s'', hs''⟩ := cons_of_head? hend
          rw [hs'', List.length_cons] at hlerest
          have hbb' : blanks (blanks rest) = closing :: s'' := by rw [blanks_blanks, hs'']
          rw [bind_ok (parseChar_hit hbb')]
          refine .reads (a := make items) (fun tree rest' => ?_) (show s''.length < s.length by omega) rfl ⟨rfl, hmade⟩
          constructor
          · rintro (⟨-, h⟩ | ⟨items', t, rfl, h, ht⟩)
            · exact absurd h (hfirst _)
            · obtain ⟨rfl, rfl⟩ := (hread _ _).mp (hclosed h ht)
              rw [hs''] at ht
              cases ht
              exact ⟨rfl, rfl⟩
          · rintro ⟨rfl, rfl⟩
            exact .inr ⟨items, rest, rfl, (hitems _ _).mpr ((hread _ _).mpr ⟨rfl, rfl⟩).1, hs''⟩
        · have hmiss : (blanks (blanks rest)).head? ≠ some closing := by rwa [blanks_blanks]
          rw [bind_ok (parseChar_miss hmiss)]
          refine .fails ?_ rfl
          rintro tree rest' (⟨-, h⟩ | ⟨items', t, -, h, ht⟩)
          · exact hfirst _ h
          · obtain ⟨-, rfl⟩ := (hread _ _).mp (hclosed h ht)
            exact hend (congrArg List.head? ht)
      | fails hnone' hresult =>
        rw [bind_error hresult]
        refine .fails ?_ rfl
        rintro tree rest (⟨-, h⟩ | ⟨items, s'', -, h, hs''⟩)
        · exact hfirst _ h
        · exact hnone' _ _ (hclosed h hs'')

theorem afterNumber_length {c : UInt8} (hc : StartsNumber c) : (afterNumber (c :: s)).length ≤ s.length := by
  have hdigits (t : Bytes) : (t.dropWhile isDigit).length ≤ t.length := List.length_dropWhile_le ..
  have hfirst : ((if (c :: s).head? = some 45 then (c :: s).tail else c :: s).dropWhile isDigit).length ≤ s.length := by
    by_cases h45 : c = 45
    · subst h45
      exact hdigits s
    · rw [if_neg (show ¬ (c :: s).head? = some 45 from fun h => h45 (Option.some.inj h)),
        List.dropWhile_cons_of_pos (hc.resolve_left h45)]
      exact hdigits s
  unfold afterNumber
  dsimp only
  generalize (if (c :: s).head? = some 45 then (c :: s).tail else c :: s).dropWhile isDigit = t at hfirst
  have hfraction : (if t.head? = some 46 then t.tail.dropWhile isDigit else t).length ≤ t.length := by
    split
    · exact (hdigits _).trans (by simp)
    · exact Nat.le_refl _
  generalize (if t.head? = some 46 then t.tail.dropWhile isDigit else t) = u at hfraction
  split
  · refine (hdigits _).trans ?_
    split <;> simp only [List.length_tail] <;> omega
  · omega

/-- The words that are values. -/
def word : Option Bool → Bytes
  | some b => ascii (if b then "true" else "false")
  | none => ascii "null"

def wordTree : Option Bool → Tree
  | some b => .bool b
  | none => .null

theorem word_append_inj {w w' : Option Bool} {r r' : Bytes} (h : word w ++ r = word w' ++ r') : w = w' ∧ r = r' := by
  have htrue : word (some true) = [116, 114, 117, 101] := rfl
  have hfalse : word (some false) = [102, 97, 108, 115, 101] := rfl
  have hnull : word none = [110, 117, 108, 108] := rfl
  rcases w with _ | _ | _ <;> rcases w' with _ | _ | _ <;> simp [htrue, hfalse, hnull] at h ⊢ <;> exact h

theorem word_reads {w : Option Bool} {r : Bytes} (hs : blanks s = word w ++ r) (tree : Tree) (rest : Bytes) :
    Reads s tree rest ↔ tree = wordTree w ∧ rest = r := by
  constructor
  · intro h
    obtain ⟨c, s', hc, hshape⟩ := reads_iff.mp h
    have hword : c = 116 ∨ c = 102 ∨ c = 110 := by
      rw [hs] at hc
      rcases w with _ | _ | _
      · exact .inr (.inr (List.cons.inj hc).1.symm)
      · exact .inr (.inl (List.cons.inj hc).1.symm)
      · exact .inl (List.cons.inj hc).1.symm
    rcases (shape_word hword).mp hshape with ⟨b, rfl, heq⟩ | ⟨rfl, heq⟩
    · obtain ⟨rfl, rfl⟩ := @word_append_inj w (some b) r rest (hs.symm.trans (hc.trans heq))
      exact ⟨rfl, rfl⟩
    · obtain ⟨rfl, rfl⟩ := @word_append_inj w none r rest (hs.symm.trans (hc.trans heq))
      exact ⟨rfl, rfl⟩
  · rintro ⟨rfl, rfl⟩
    cases w with
    | none => exact .null hs
    | some b => exact .bool b hs

theorem word_length (w : Option Bool) : 0 < (word w).length := by
  rcases w with _ | _ | _ <;> exact Nat.zero_lt_succ _

theorem word_spec {c : UInt8} {w : Option Bool} {v : Value} (hv : v.ref = none)
    (hstands : ∀ G, Stands G (wordTree w) v) {r : Bytes} (hs : blanks s = c :: s') (hr : word w ++ r = c :: s') :
    Exactly (Reads s) s (Makes hash H) (some (.ok (v, ⟨(c :: s').drop (word w).length, H⟩))) := by
  have hle := blanks_length s
  have hlen := congrArg List.length hr
  have hpos := word_length w
  rw [hs] at hle
  rw [List.length_append] at hlen
  refine .reads (word_reads (hs.trans hr.symm)) (by omega) rfl ⟨?_, .leaf (sound_next H) hv (hstands _)⟩
  rw [← hr]
  exact List.drop_left

theorem parseNumber_run {c : UInt8} (hb : blanks (c :: s) = c :: s) :
    parseNumber ⟨c :: s, H⟩ = some (.ok (.number (numberOf (c :: s)), ⟨afterNumber (c :: s), H⟩)) := by
  unfold parseNumber
  rw [bind_ok (a := ()) (q := ⟨blanks (c :: s), H⟩) rfl, hb]
  rfl

theorem newTable_empty : (H.newTable.tables H.next) = initTable := Function.update_self ..

theorem array_nil : (Tree.array []).at = fun _ => .null := by
  funext k
  rw [at_array]
  cases k.place with
  | none => rfl
  | some i => exact elementAt_behind (Nat.zero_le i)

/-- An array is read like its tree. -/
theorem parseArray_spec (hparse : ParsesBelow hash n parse) (hn : n ≤ 2 ^ 30) (hs : blanks s = 91 :: s')
    (hlen : s.length ≤ n) : Exactly (fun tree rest => tree = .array [] ∧ blanks s' = 93 :: rest ∨
        ∃ elements s'', tree = .array elements ∧ ReadsElements s' elements s'' ∧ blanks s'' = 93 :: rest)
      s (Makes hash H) (parseArray parse ⟨s, H⟩) := by
  have hle := blanks_length s
  have hle' := blanks_length s'
  rw [hs, List.length_cons] at hle
  have hnew : Filled hash Stands H H.newTable fun _ => Tree.null := Filled.new fun _ => .null
  rw [← array_nil] at hnew
  have hlined : Lined hash (H.newTable.tables H.next) [] := by
    rw [newTable_empty]
    exact initTable_lined
  have hloop := @elementsLoop_spec hash parse n ((blanks s').length + 1) (blanks s') H H.newTable hparse []
    (Nat.lt_succ_self _) (by omega) hnew hlined (by rw [List.length_nil]; omega)
  refine parseTable_spec readsElements_commas (fun t item rest h => ?_) (fun t u item rest h => (reads_congr h).mp)
    (by decide) hs (hnew.made (.array hnew.stands))
    (hloop.imp (fun _ _ => Iff.rfl) (Nat.le_refl _) fun elements rest b p h => ⟨h.1, h.2.made (.array h.2.stands)⟩)
  obtain ⟨c, t', hc, hshape⟩ := reads_iff.mp h
  refine ⟨c, t', hc, ?_⟩
  rintro rfl
  exact shape_closing (.inl rfl) hshape

/-- An object is read like its tree. -/
theorem parseObject_spec (hparse : ParsesBelow hash n parse) (hn : n ≤ 2 ^ 30) (hs : blanks s = 123 :: s')
    (hlen : s.length ≤ n) : Exactly (fun tree rest => tree = .object [] ∧ blanks s' = 125 :: rest ∨
        ∃ members s'', tree = .object members ∧ ReadsMembers s' members s'' ∧ blanks s'' = 125 :: rest)
      s (Makes hash H) (parseObject hash parse ⟨s, H⟩) := by
  have hle := blanks_length s
  have hle' := blanks_length s'
  rw [hs, List.length_cons] at hle
  have hnew : Filled hash Stands H H.newTable (Tree.object []).at := Filled.new fun _ => .null
  have hempty : (H.newTable.tables H.next).array = [] := by
    rw [newTable_empty]
    rfl
  have hloop := @membersLoop_spec hash parse n ((blanks s').length + 1) (blanks s') H H.newTable hparse []
    (Nat.lt_succ_self _) (by omega) hn hnew hempty
  refine parseTable_spec readsMembers_commas (fun t item rest h => ?_) (fun t u item rest h => ?_)
    (by decide) hs (hnew.made (.object hnew.stands))
    (hloop.imp (fun _ _ => Iff.rfl) (Nat.le_refl _) fun members rest b p h => ⟨h.1, h.2.made (.object h.2.stands)⟩)
  · obtain ⟨t₁, ⟨t₂, ⟨t₃, ht₃, -⟩, -⟩, -⟩ := h
    exact ⟨34, t₃, ht₃, by decide⟩
  · rintro ⟨t₁, hkey, hread⟩
    exact ⟨t₁, (keyed_congr h).mp hkey, hread⟩

/-- A string is read like its tree. -/
theorem parseString_value (hs : blanks s = 34 :: s') (hlen : s.length ≤ 2 ^ 30 - 1) :
    Exactly (Reads s) s (Makes hash H) ((parseString >>= fun str => pure (.string str)) ⟨34 :: s', H⟩) := by
  have hle := blanks_length s
  have hbb : blanks (34 :: s') = 34 :: s' := by rw [← hs, blanks_blanks]
  rw [hs] at hle
  cases @parseString_spec (34 :: s') H (hle.trans hlen) with
  | @reads str rest b p hread hlt hresult hdone =>
    obtain ⟨rfl, rfl⟩ := hdone
    rw [bind_ok hresult]
    refine .reads (a := .string b) (fun tree rest' => (reads_shape hs).trans ?_)
      (show rest.length < s.length by omega) rfl ⟨rfl, .leaf (sound_next H) rfl (.string b)⟩
    constructor
    · rintro ⟨str, rfl, h⟩
      obtain ⟨rfl, rfl⟩ := (hread _ _).mp ⟨s', hbb, h⟩
      exact ⟨rfl, rfl⟩
    · rintro ⟨rfl, rfl⟩
      obtain ⟨t, ht, h⟩ := (hread _ _).mpr ⟨rfl, rfl⟩
      rw [hbb] at ht
      cases ht
      exact ⟨_, rfl, h⟩
  | fails hnone hresult =>
    rw [bind_error hresult]
    refine .fails (fun tree rest h => ?_) rfl
    obtain ⟨str, -, h⟩ := (reads_shape hs).mp h
    exact hnone _ _ ⟨s', hbb, h⟩

theorem parseValue_spec (n : Nat) (hn : n ≤ 2 ^ 30) : ParsesBelow hash n (parseValue hash n) := by
  induction n with
  | zero =>
    intro s H hs
    omega
  | succ n ih =>
    intro s H hs
    have hparse := ih (by omega)
    have hle := blanks_length s
    unfold parseValue
    rw [bind_ok (a := ()) (q := ⟨blanks s, H⟩) rfl, bind_ok (a := (⟨blanks s, H⟩ : Parser)) (q := ⟨blanks s, H⟩) rfl]
    dsimp only
    cases hb : blanks s with
    | nil =>
      refine .fails (fun tree rest h => ?_) rfl
      obtain ⟨c, s', hc, -⟩ := reads_iff.mp h
      rw [hb] at hc
      cases hc
    | cons c s' =>
      dsimp only
      rw [hb, List.length_cons] at hle
      have hbb : blanks (c :: s') = c :: s' := by rw [← hb, blanks_blanks]
      have hiff (tree : Tree) (rest : Bytes) : Reads s tree rest ↔ Shape c s' tree rest := reads_shape hb
      by_cases h34 : c = 34
      · subst h34
        rw [if_pos rfl]
        exact parseString_value hb (by omega)
      by_cases h123 : c = 123
      · subst h123
        rw [if_neg h34, if_pos rfl]
        have hread := @parseObject_spec hash (parseValue hash n) n (123 :: s') s' H hparse (by omega) hbb
          (by rw [List.length_cons]; omega)
        refine hread.imp (fun tree rest => (hiff tree rest).trans ?_) (by rw [List.length_cons]; omega) fun _ _ _ _ h => h
        rw [Shape, if_neg h34, if_pos rfl]
      by_cases h91 : c = 91
      · subst h91
        rw [if_neg h34, if_neg h123, if_pos rfl]
        have hread := @parseArray_spec hash (parseValue hash n) n (91 :: s') s' H hparse (by omega) hbb
          (by rw [List.length_cons]; omega)
        refine hread.imp (fun tree rest => (hiff tree rest).trans ?_) (by rw [List.length_cons]; omega) fun _ _ _ _ h => h
        rw [Shape, if_neg h34, if_neg h123, if_pos rfl]
      rw [if_neg h34, if_neg h123, if_neg h91]
      by_cases hnumber : c = 45 ∨ isDigit c = true
      · have hshort := @afterNumber_length s' c hnumber
        rw [if_pos hnumber, parseNumber_run hbb]
        exact .reads (fun tree rest => (hiff tree rest).trans (shape_number hnumber)) (by omega) rfl
          ⟨rfl, .leaf (sound_next H) rfl (.number _)⟩
      rw [if_neg hnumber]
      by_cases htrue : ascii "true" <+: c :: s'
      · rw [if_pos htrue]
        obtain ⟨r, hr⟩ := htrue
        exact @word_spec _ _ _ _ _ (some true) _ rfl (fun _ => .bool true) _ hb hr
      by_cases hfalse : ascii "false" <+: c :: s'
      · rw [if_neg htrue, if_pos hfalse]
        obtain ⟨r, hr⟩ := hfalse
        exact @word_spec _ _ _ _ _ (some false) _ rfl (fun _ => .bool false) _ hb hr
      by_cases hnull : ascii "null" <+: c :: s'
      · rw [if_neg htrue, if_neg hfalse, if_pos hnull]
        obtain ⟨r, hr⟩ := hnull
        exact @word_spec _ _ _ _ _ none _ rfl (fun _ => .null) _ hb hr
      rw [if_neg htrue, if_neg hfalse, if_neg hnull]
      refine .fails (fun tree rest h => ?_) rfl
      rcases (shape_other h34 h123 h91 hnumber).mp ((hiff _ _).mp h) with ⟨b, -, h⟩ | ⟨-, h⟩
      · cases b with
        | false => exact hfalse ⟨rest, h.symm⟩
        | true => exact htrue ⟨rest, h.symm⟩
      · exact hnull ⟨rest, h.symm⟩

end Values

/-- A text of the grammar has one tree, and the value that comes back is made as the tree says. -/
theorem jsonDecode_spec (hash : Bytes → UInt32) (str : Bytes) (hsize : str.length < 2 ^ 30) (H : TableHeap) :
    (∃ tree w H', (∀ tree', Accepts str tree' ↔ tree' = tree) ∧ jsonDecode hash str H = some (.ok (w, H')) ∧
        Made hash Stands H H' tree w) ∨
      (∀ tree, ¬ Accepts str tree) ∧ ∃ message, jsonDecode hash str H = some (.error message) := by
  unfold jsonDecode
  cases parseValue_spec (str.length + 1) (by omega) str H (Nat.lt_succ_self _) with
  | @reads tree rest w p hread hlt hresult hdone =>
    obtain ⟨rest', H'⟩ := p
    obtain ⟨rfl, hmade⟩ := hdone
    change ∀ tree' rest, Reads str tree' rest ↔ tree' = tree ∧ rest = rest' at hread
    rw [hresult]
    dsimp only
    by_cases hend : blanks rest' = []
    · refine .inl ⟨tree, w, H', fun tree' => ?_, if_pos hend, hmade⟩
      constructor
      · rintro ⟨rest, h, -⟩
        exact ((hread _ _).mp h).1
      · rintro rfl
        exact ⟨rest', (hread _ _).mpr ⟨rfl, rfl⟩, hend⟩
    · refine .inr ⟨?_, _, if_neg hend⟩
      rintro tree' ⟨rest, h, hrest⟩
      rw [((hread _ _).mp h).2] at hrest
      exact hend hrest
  | fails hnone hresult =>
    rw [hresult]
    refine .inr ⟨?_, _, rfl⟩
    rintro tree ⟨rest, h, -⟩
    exact hnone _ _ h

end Json

end ToiLang
