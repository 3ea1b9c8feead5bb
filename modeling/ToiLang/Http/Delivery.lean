import ToiLang.Http.Connection

namespace ToiLang.Http

/-! What reaches the peer when the socket takes only a part of what it is given. -/

/-- What `send` of a non-blocking socket does: it takes some bytes, or none. `sock_send` returns it
and the server drops it. -/
inductive Outcome
  | accepted (n : Nat)
  | wouldBlock

def Outcome.count : Outcome → Nat
  | accepted n => n
  | wouldBlock => 0

/-- The bytes that the peer receives of a list of `client.send` calls, the first of which is the
`k`th of the connection. -/
def deliver (outcomes : Nat → Outcome) : Nat → List Bytes → Bytes
  | _, [] => []
  | k, data :: sends => data.take (outcomes k).count ++ deliver outcomes (k + 1) sends

/-- A chunk as the transfer coding has it. -/
def chunkBytes (data : Bytes) : Bytes := hexText data.length ++ crlf ++ data ++ crlf

def streamBytes (chunks : List (Option Bytes)) : Bytes :=
  chunks.flatMap fun
    | none => []
    | some data => if data = [] then [] else chunkBytes data

/-- A response with the calls that send it. It is not whole where its stream breaks off. -/
structure Response where
  sends : List Bytes
  bytes : Bytes
  whole : Bool

def Response.plain (text : Bytes) : Response := ⟨[text], text, true⟩

def Reply.responses (keepAlive : Bool) : Reply → List Response
  | raises => [.plain internalServerError]
  | text raw => [.plain (decorateConnectionHeaders raw keepAlive)]
  | stream s =>
    let head := decorateConnectionHeaders s.head keepAlive
    if s.raises then
      [⟨head :: chunkFrames s.chunks, head ++ streamBytes s.chunks, false⟩, .plain internalServerError]
    else
      [⟨head :: chunkFrames s.chunks ++ [lastChunk], head ++ streamBytes s.chunks ++ lastChunk, true⟩]

def Answer.responses : Answer → List Response
  | bad => [.plain badRequest]
  | reply r a => a.responses (keepAliveRequest r)

/-- The responses with what the peer receives of each. -/
def deliveries (outcomes : Nat → Outcome) : Nat → List Response → List (Response × Bytes)
  | _, [] => []
  | k, r :: rs => (r, deliver outcomes k r.sends) :: deliveries outcomes (k + r.sends.length) rs

/-- The peer receives the bytes of the responses, and nothing behind a response that it does not
have completely. -/
def Delivered (outcomes : Nat → Outcome) (answers : List Answer) : Prop :=
  deliver outcomes 0 (answers.flatMap Answer.sends) =
      (answers.flatMap Answer.responses).flatMap Response.bytes ∧
    ∀ before r got behind,
      deliveries outcomes 0 (answers.flatMap Answer.responses) = before ++ (r, got) :: behind →
      (r.whole = true ∧ got = r.bytes) ∨ ∀ d ∈ behind, d.2 = []

/-- A stream that does not raise, with no zero byte in its chunks. -/
def Reply.Sendable : Reply → Prop
  | stream s => s.raises = false ∧ ∀ data, some data ∈ s.chunks → (0 : UInt8) ∉ data
  | _ => True

def Answer.Sendable : Answer → Prop
  | bad => True
  | reply _ a => a.Sendable

/-- Each call takes all that it is given. -/
def AllAccepted (outcomes : Nat → Outcome) (k : Nat) (sends : List Bytes) : Prop :=
  ∀ i data, sends[i]? = some data → data.length ≤ (outcomes (k + i)).count

variable {outcomes : Nat → Outcome} {k : Nat} {sends : List Bytes}

theorem deliver_length_le : (deliver outcomes k sends).length ≤ sends.flatten.length := by
  induction sends generalizing k with
  | nil => exact Nat.le_refl 0
  | cons data sends ih =>
    have h := @ih (k + 1)
    simp only [deliver, List.flatten_cons, List.length_append, List.length_take]
    omega

theorem allAccepted_cons {data : Bytes} : AllAccepted outcomes k (data :: sends) ↔
    data.length ≤ (outcomes k).count ∧ AllAccepted outcomes (k + 1) sends := by
  constructor
  · intro h
    refine ⟨h 0 data rfl, fun i d hd => ?_⟩
    have hi := h (i + 1) d hd
    rwa [show k + (i + 1) = k + 1 + i by omega] at hi
  · rintro ⟨h, hs⟩ i d hd
    cases i with
    | zero =>
      cases Option.some.inj hd
      exact h
    | succ i =>
      have hi := hs i d hd
      rwa [show k + 1 + i = k + (i + 1) by omega] at hi

theorem deliver_accepted (h : AllAccepted outcomes k sends) : deliver outcomes k sends = sends.flatten := by
  induction sends generalizing k with
  | nil => rfl
  | cons data sends ih =>
    obtain ⟨hd, hs⟩ := allAccepted_cons.mp h
    rw [deliver, List.take_of_length_le hd, ih hs, List.flatten_cons]

/-- No byte is missing only where every call takes all of its bytes. -/
theorem accepted_of_length (h : sends.flatten.length ≤ (deliver outcomes k sends).length) :
    AllAccepted outcomes k sends := by
  induction sends generalizing k with
  | nil =>
    intro i data hd
    simp at hd
  | cons data sends ih =>
    have hle := @deliver_length_le outcomes (k + 1) sends
    simp only [deliver, List.flatten_cons, List.length_append, List.length_take] at h
    exact allAccepted_cons.mpr ⟨by omega, ih (by omega)⟩

theorem takeWhile_length_eq {data : Bytes} :
    (data.takeWhile (· ≠ 0)).length = data.length ↔ (0 : UInt8) ∉ data := by
  constructor
  · intro h h0
    have hall : data.takeWhile (· ≠ 0) = data := (List.takeWhile_prefix _).eq_of_length h
    rw [List.takeWhile_eq_self_iff] at hall
    simpa using hall 0 h0
  · intro h
    rw [List.takeWhile_eq_self_iff.mpr]
    intro c hc
    have hne : c ≠ 0 := fun h0 => h (h0 ▸ hc)
    simpa using hne

theorem chunkFrame_of_no_zero {data : Bytes} (h : (0 : UInt8) ∉ data) : chunkFrame data = chunkBytes data := by
  have hall : data.takeWhile (· ≠ 0) = data := (List.takeWhile_prefix _).eq_of_length (takeWhile_length_eq.mpr h)
  rw [chunkFrame, hall, chunkBytes]

theorem chunkFrames_cons (chunk : Option Bytes) (chunks : List (Option Bytes)) :
    (chunkFrames (chunk :: chunks)).flatten = (chunkFrames [chunk]).flatten ++ (chunkFrames chunks).flatten := by
  rw [← List.flatten_append, chunkFrames, chunkFrames, chunkFrames, ← List.filterMap_append,
    List.singleton_append]

theorem chunkFrames_flatten {chunks : List (Option Bytes)}
    (h : ∀ data, some data ∈ chunks → (0 : UInt8) ∉ data) :
    (chunkFrames chunks).flatten = streamBytes chunks := by
  induction chunks with
  | nil => rfl
  | cons chunk chunks ih =>
    have hrest := ih fun data hd => h data (List.mem_cons_of_mem _ hd)
    rw [chunkFrames_cons, hrest, streamBytes, streamBytes, List.flatMap_cons]
    congr 1
    cases chunk with
    | none => rfl
    | some data =>
      by_cases he : data = []
      · simp [chunkFrames, he]
      · simp [chunkFrames, he, chunkFrame_of_no_zero (h data List.mem_cons_self)]

/-- The frames are shorter than the chunks where a chunk holds a zero byte. -/
theorem chunkFrames_length (chunks : List (Option Bytes)) :
    (chunkFrames chunks).flatten.length ≤ (streamBytes chunks).length ∧
      ((streamBytes chunks).length ≤ (chunkFrames chunks).flatten.length →
        ∀ data, some data ∈ chunks → (0 : UInt8) ∉ data) := by
  induction chunks with
  | nil => exact ⟨Nat.le_refl 0, fun _ _ h => nomatch h⟩
  | cons chunk chunks ih =>
    have hone : (chunkFrames [chunk]).flatten.length ≤ (streamBytes [chunk]).length ∧
        ((streamBytes [chunk]).length ≤ (chunkFrames [chunk]).flatten.length →
          ∀ data, some data = chunk → (0 : UInt8) ∉ data) := by
      cases chunk with
      | none => exact ⟨Nat.le_refl 0, fun _ _ h => nomatch h⟩
      | some data =>
        have hle := (List.takeWhile_prefix (fun c : UInt8 => decide (c ≠ 0)) (l := data)).length_le
        by_cases he : data = []
        · subst he
          exact ⟨Nat.le_refl 0, fun _ data hd => by cases Option.some.inj hd; simp⟩
        · have hf : (chunkFrames [some data]).flatten = chunkFrame data := by simp [chunkFrames, he]
          have hs : streamBytes [some data] = chunkBytes data := by simp [streamBytes, he]
          rw [hf, hs]
          simp only [chunkFrame, chunkBytes, List.length_append]
          refine ⟨by omega, fun hlen d hd => ?_⟩
          cases Option.some.inj hd
          exact takeWhile_length_eq.mp (by omega)
    have hsplit : streamBytes (chunk :: chunks) = streamBytes [chunk] ++ streamBytes chunks := by
      simp [streamBytes]
    rw [chunkFrames_cons, hsplit, List.length_append, List.length_append]
    refine ⟨by omega, fun hlen data hd => ?_⟩
    rcases List.mem_cons.mp hd with hd | hd
    · exact hone.2 (by omega) data hd
    · exact ih.2 (by omega) data hd

theorem Reply.responses_sends (keepAlive : Bool) (a : Reply) :
    (a.responses keepAlive).flatMap Response.sends = a.sends keepAlive := by
  cases a with
  | raises => rfl
  | text raw => rfl
  | stream s =>
    obtain ⟨head, chunks, raises⟩ := s
    cases raises with
    | true => simp [Reply.responses, Reply.sends, Response.plain]
    | false => simp [Reply.responses, Reply.sends]

theorem Answer.responses_sends (a : Answer) : a.responses.flatMap Response.sends = a.sends := by
  cases a with
  | bad => rfl
  | reply r a => exact a.responses_sends _

theorem responses_sends (answers : List Answer) :
    (answers.flatMap Answer.responses).flatMap Response.sends = answers.flatMap Answer.sends := by
  rw [List.flatMap_assoc]
  exact congrArg (fun f => answers.flatMap f) (funext Answer.responses_sends)

/-- A response is sent in full where its frames are. -/
theorem Answer.sendable_responses {a : Answer} (h : a.Sendable) :
    ∀ r ∈ a.responses, r.whole = true ∧ r.sends.flatten = r.bytes := by
  have hplain : ∀ text : Bytes, ∀ r ∈ [Response.plain text], r.whole = true ∧ r.sends.flatten = r.bytes := by
    intro text r hr
    obtain rfl := List.mem_singleton.mp hr
    exact ⟨rfl, List.append_nil text⟩
  cases a with
  | bad => exact hplain _
  | reply r a =>
    cases a with
    | raises => exact hplain _
    | text raw => exact hplain _
    | stream s =>
      obtain ⟨head, chunks, raises⟩ := s
      obtain ⟨hr, hzero⟩ := h
      obtain rfl : raises = false := hr
      intro r hr
      obtain rfl := List.mem_singleton.mp hr
      refine ⟨rfl, ?_⟩
      simp [chunkFrames_flatten hzero]

/-- The bytes sent are no more than those of the responses, and fewer where a chunk holds a zero
byte. -/
theorem Answer.sends_length (a : Answer) :
    a.sends.flatten.length ≤ (a.responses.flatMap Response.bytes).length ∧
      ((a.responses.flatMap Response.bytes).length ≤ a.sends.flatten.length →
        ∀ r s, a = .reply r (.stream s) → ∀ data, some data ∈ s.chunks → (0 : UInt8) ∉ data) := by
  cases a with
  | bad => exact ⟨Nat.le_of_eq (by simp [Answer.sends, Answer.responses, Response.plain]), fun _ _ _ h => by cases h⟩
  | reply r a =>
    cases a with
    | raises =>
      exact ⟨Nat.le_of_eq (by simp [Answer.sends, Answer.responses, Reply.sends, Reply.responses, Response.plain]),
        fun _ _ _ h => by cases h⟩
    | text raw =>
      exact ⟨Nat.le_of_eq (by simp [Answer.sends, Answer.responses, Reply.sends, Reply.responses, Response.plain]),
        fun _ _ _ h => by cases h⟩
    | stream s =>
      obtain ⟨head, chunks, raises⟩ := s
      obtain ⟨hle, hzero⟩ := chunkFrames_length chunks
      cases raises with
      | true =>
        simp only [Answer.sends, Answer.responses, Reply.sends, Reply.responses, Response.plain, ↓reduceIte,
          List.flatten_append, List.flatten_cons, List.flatten_nil, List.flatMap_cons, List.flatMap_nil,
          List.append_nil, List.length_append]
        refine ⟨by omega, fun hlen r' s' he => ?_⟩
        cases he
        exact hzero (by omega)
      | false =>
        simp only [Answer.sends, Answer.responses, Reply.sends, Reply.responses, Bool.false_eq_true, ↓reduceIte,
          List.flatten_append, List.flatten_cons, List.flatten_nil, List.flatMap_cons, List.flatMap_nil,
          List.append_nil, List.length_append]
        refine ⟨by omega, fun hlen r' s' he => ?_⟩
        cases he
        exact hzero (by omega)

theorem sends_length (answers : List Answer) :
    (answers.flatMap Answer.sends).flatten.length ≤
        ((answers.flatMap Answer.responses).flatMap Response.bytes).length ∧
      (((answers.flatMap Answer.responses).flatMap Response.bytes).length ≤
        (answers.flatMap Answer.sends).flatten.length →
        ∀ a ∈ answers, ∀ r s, a = .reply r (.stream s) → ∀ data, some data ∈ s.chunks → (0 : UInt8) ∉ data) := by
  induction answers with
  | nil => exact ⟨Nat.le_refl 0, fun _ _ h => nomatch h⟩
  | cons a answers ih =>
    have hone := a.sends_length
    simp only [List.flatMap_cons, List.flatten_append, List.flatMap_append, List.length_append]
    refine ⟨by omega, fun hlen b hb => ?_⟩
    rcases List.mem_cons.mp hb with rfl | hb
    · exact hone.2 (by omega)
    · exact ih.2 (by omega) b hb

theorem allAccepted_append {xs ys : List Bytes} : AllAccepted outcomes k (xs ++ ys) ↔
    AllAccepted outcomes k xs ∧ AllAccepted outcomes (k + xs.length) ys := by
  induction xs generalizing k with
  | nil =>
    have hnil : AllAccepted outcomes k [] := fun i d hd => by simp at hd
    exact ⟨fun h => ⟨hnil, h⟩, fun h => h.2⟩
  | cons x xs ih =>
    rw [List.cons_append, allAccepted_cons, ih, allAccepted_cons, List.length_cons, and_assoc,
      show k + (xs.length + 1) = k + 1 + xs.length by omega]

theorem deliveries_accepted {rs : List Response} (h : AllAccepted outcomes k (rs.flatMap Response.sends)) :
    deliveries outcomes k rs = rs.map fun r => (r, r.sends.flatten) := by
  induction rs generalizing k with
  | nil => rfl
  | cons r rs ih =>
    rw [List.flatMap_cons] at h
    obtain ⟨hr, hrs⟩ := allAccepted_append.mp h
    rw [deliveries, deliver_accepted hr, ih hrs, List.map_cons]

/-- Behind a stream that raises comes another response. -/
theorem Answer.not_whole {a : Answer} {r : Request} {s : StreamResponse} (ha : a = .reply r (.stream s))
    (hs : s.raises = true) : ∃ cut, a.responses = [cut, .plain internalServerError] ∧ cut.whole = false := by
  subst ha
  let head := decorateConnectionHeaders s.head (keepAliveRequest r)
  refine ⟨⟨head :: chunkFrames s.chunks, head ++ streamBytes s.chunks, false⟩, ?_, rfl⟩
  simp only [Answer.responses, Reply.responses, hs, ↓reduceIte, head]

theorem upsertResponseHeader_ne {raw : Bytes} (key value : Bytes) (h : raw ≠ []) :
    upsertResponseHeader raw key value ≠ [] := by
  unfold upsertResponseHeader
  split
  · exact h
  · split
    · exact h
    · simp [crlf]

theorem internalServerError_ne : internalServerError ≠ [] := by
  unfold internalServerError decorateConnectionHeaders
  apply upsertResponseHeader_ne
  rw [ascii_ofList]
  exact List.cons_ne_nil _ _

/-- Where all bytes arrive, every call takes its bytes and no frame is cut at a zero byte. -/
theorem Delivered.allAccepted {answers : List Answer} (h : Delivered outcomes answers) :
    AllAccepted outcomes 0 (answers.flatMap Answer.sends) ∧
      ∀ a ∈ answers, ∀ r s, a = .reply r (.stream s) → ∀ data, some data ∈ s.chunks → (0 : UInt8) ∉ data := by
  have hlen := congrArg List.length h.1
  obtain ⟨hle, hzero⟩ := sends_length answers
  have hdle := @deliver_length_le outcomes 0 (answers.flatMap Answer.sends)
  exact ⟨accepted_of_length (by omega), hzero (by omega)⟩

theorem connection_greet :
    ∃ r, connection greet () [piece (ascii "GET / HTTP/1.1\r\n\r\nx\r\n")] =
      some [.reply r (greet () r).1, .bad] :=
  ⟨_, rfl⟩

end ToiLang.Http
