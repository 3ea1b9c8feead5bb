import ToiLang.Markup

namespace Markup

/-! The text of a marked up document, read back from its bytes. -/

/-- The pieces of text, as they were before they were escaped. -/
def plain : List Token → List UInt8
  | [] => []
  | .text raw :: tokens => raw ++ plain tokens
  | _ :: tokens => plain tokens

/-- The bytes outside of tags; `inside` says whether the first byte is in one. -/
def outside : Bool → List UInt8 → List UInt8
  | _, [] => []
  | false, c :: s => if c = 60 then outside true s else c :: outside false s
  | true, c :: s => if c = 62 then outside false s else outside true s

def stripTags (s : List UInt8) : List UInt8 := outside false s

/-- The text with the five entities decoded. -/
def unescape : List UInt8 → List UInt8
  | 38 :: 97 :: 109 :: 112 :: 59 :: s => 38 :: unescape s
  | 38 :: 108 :: 116 :: 59 :: s => 60 :: unescape s
  | 38 :: 103 :: 116 :: 59 :: s => 62 :: unescape s
  | 38 :: 113 :: 117 :: 111 :: 116 :: 59 :: s => 34 :: unescape s
  | 38 :: 35 :: 51 :: 57 :: 59 :: s => 39 :: unescape s
  | c :: s => c :: unescape s
  | [] => []

theorem plain_append (a b : List Token) : plain (a ++ b) = plain a ++ plain b := by
  induction a with
  | nil => rfl
  | cons t a ih =>
    cases t with
    | text raw => simp only [List.cons_append, plain, ih, List.append_assoc]
    | opening | closing | void => simpa only [List.cons_append, plain] using ih

/-- An escaped byte is none that a tag starts or ends with. -/
theorem mem_escapeByte {c d : UInt8} (h : d ∈ escapeByte c) : d ≠ 60 ∧ d ≠ 62 := by
  unfold escapeByte at h
  split_ifs at h with h₁ h₂ h₃ h₄ h₅
  case neg =>
    rw [List.mem_singleton] at h
    rw [h]
    exact ⟨h₂, h₃⟩
  all_goals
    simp only [List.mem_cons, List.not_mem_nil, or_false] at h
    rcases h with rfl | rfl | rfl | rfl | rfl | rfl <;> decide

theorem mem_escape {s : List UInt8} {d : UInt8} (h : d ∈ escape s) : d ≠ 60 ∧ d ≠ 62 := by
  obtain ⟨c, -, hd⟩ := List.mem_flatMap.mp h
  exact mem_escapeByte hd

/-- Bytes that no tag starts with stay. -/
theorem outside_text {a : List UInt8} (h : ∀ d ∈ a, d ≠ 60) (s : List UInt8) :
    outside false (a ++ s) = a ++ outside false s := by
  induction a with
  | nil => rfl
  | cons d a ih =>
    have hd := h d List.mem_cons_self
    rw [List.cons_append, outside, if_neg hd, ih fun e he => h e (List.mem_cons_of_mem _ he), List.cons_append]

/-- A tag ends with its first greater-than sign. -/
theorem outside_tag {a : List UInt8} (h : ∀ d ∈ a, d ≠ 62) (s : List UInt8) :
    outside true (a ++ 62 :: s) = outside false s := by
  induction a with
  | nil => rw [List.nil_append, outside, if_pos rfl]
  | cons d a ih =>
    have hd := h d List.mem_cons_self
    rw [List.cons_append, outside, if_neg hd, ih fun e he => h e (List.mem_cons_of_mem _ he)]

theorem Name.ne_greater (name : Name) {d : UInt8} (h : d ∈ name.text) : d ≠ 62 := by
  have hall := name.letters
  simp only [Bool.and_eq_true, List.all_eq_true] at hall
  have hd := hall.2 d h
  rintro rfl
  exact absurd hd (by decide)

theorem renderAttr_ne {attr : Name × List UInt8} {d : UInt8} (h : d ∈ renderAttr attr) : d ≠ 62 := by
  unfold renderAttr at h
  simp only [List.cons_append, List.mem_cons, List.mem_append, List.not_mem_nil, or_false] at h
  rcases h with rfl | ((h | rfl | rfl) | h) | rfl
  · decide
  · exact attr.1.ne_greater h
  · decide
  · decide
  · exact (mem_escape h).2
  · decide

/-- The bytes of the tags are left out, those of the text stay. -/
theorem stripTags_token (t : Token) (s : List UInt8) :
    stripTags (t.render ++ s) = escape (plain [t]) ++ stripTags s := by
  unfold stripTags
  cases t with
  | text raw =>
    rw [Token.render, plain, plain, List.append_nil]
    exact outside_text (fun d hd => (mem_escape hd).1) s
  | opening name attrs =>
    have htag : ∀ d ∈ name.text ++ attrs.flatMap renderAttr, d ≠ 62 := by
      intro d hd
      rcases List.mem_append.mp hd with hd | hd
      · exact name.ne_greater hd
      · obtain ⟨attr, -, hattr⟩ := List.mem_flatMap.mp hd
        exact renderAttr_ne hattr
    have hrender : Token.render (.opening name attrs) ++ s =
        60 :: ((name.text ++ attrs.flatMap renderAttr) ++ 62 :: s) := by
      simp [Token.render]
    rw [hrender, outside, if_pos rfl, outside_tag htag]
    rfl
  | closing name =>
    have htag : ∀ d ∈ 47 :: name.text, d ≠ 62 := by
      intro d hd
      rcases List.mem_cons.mp hd with rfl | hd
      · decide
      · exact name.ne_greater hd
    have hrender : Token.render (.closing name) ++ s = 60 :: ((47 :: name.text) ++ 62 :: s) := by
      simp [Token.render]
    rw [hrender, outside, if_pos rfl, outside_tag htag]
    rfl
  | void name =>
    have htag : ∀ d ∈ name.text ++ [32, 47], d ≠ 62 := by
      intro d hd
      rcases List.mem_append.mp hd with hd | hd
      · exact name.ne_greater hd
      · simp only [List.mem_cons, List.not_mem_nil, or_false] at hd
        rcases hd with rfl | rfl <;> decide
    have hrender : Token.render (.void name) ++ s = 60 :: ((name.text ++ [32, 47]) ++ 62 :: s) := by
      simp [Token.render]
    rw [hrender, outside, if_pos rfl, outside_tag htag]
    rfl

theorem stripTags_render (tokens : List Token) : stripTags (render tokens) = escape (plain tokens) := by
  induction tokens with
  | nil => rfl
  | cons t tokens ih =>
    have hplain := plain_append [t] tokens
    rw [List.singleton_append] at hplain
    rw [render_cons, stripTags_token, ih, hplain, escape_append]

theorem unescape_escapeByte (c : UInt8) (s : List UInt8) : unescape (escapeByte c ++ s) = c :: unescape s := by
  unfold escapeByte
  split_ifs with h₁ h₂ h₃ h₄ h₅
  · rw [h₁]
    rfl
  · rw [h₂]
    rfl
  · rw [h₃]
    rfl
  · rw [h₄]
    rfl
  · rw [h₅]
    rfl
  · rw [List.singleton_append, unescape]
    all_goals
      intros
      exact absurd (by assumption) h₁

theorem unescape_escape (s : List UInt8) : unescape (escape s) = s := by
  induction s with
  | nil => rfl
  | cons c s ih =>
    have hcons : escape (c :: s) = escapeByte c ++ escape s := rfl
    rw [hcons, unescape_escapeByte, ih]

/-- A rendered document gives its text back. -/
theorem unescape_stripTags (tokens : List Token) : unescape (stripTags (render tokens)) = plain tokens := by
  rw [stripTags_render, unescape_escape]

end Markup
