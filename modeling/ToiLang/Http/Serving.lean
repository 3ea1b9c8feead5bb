import ToiLang.Http.Pieces

namespace ToiLang.Http

open Incremental

/-! What a connection should do with a stream of requests, and when it does. -/

variable {σ : Type}

/-- A stream that raises behind its head has no response of its own: what is sent is cut short. -/
def Reply.broken : Reply → Bool
  | stream s => s.raises
  | _ => false

/-- The bytes sent are one response. -/
inductive OneResponse (keepAlive : Bool) : Reply → List Bytes → Prop
  | error : OneResponse keepAlive .raises [internalServerError]
  | text (raw : Bytes) : OneResponse keepAlive (.text raw) [decorateConnectionHeaders raw keepAlive]
  | stream (head : Bytes) (chunks : List (Option Bytes)) :
      OneResponse keepAlive (.stream ⟨head, chunks, false⟩)
        (decorateConnectionHeaders head keepAlive :: chunkFrames chunks ++ [lastChunk])

/-- The requests of a stream are handled in their order, each has one response, and nothing follows
a bad request, an error or a request without keep-alive. -/
inductive Serves (handler : σ → Request → Reply × σ) : σ → Bytes → List Event → Prop
  | waits {s : σ} {stream : Bytes} : httpParse stream = some .incomplete ∨ OpenHead stream →
      Serves handler s stream []
  | bad {s : σ} {stream : Bytes} : httpParse stream = some .rejected →
      Serves handler s stream [.sent badRequest]
  | goesOn {s s' : σ} {stream : Bytes} {r : Request} {reply : Reply} {sends : List Bytes}
      {log : List Event} : Complete stream r → handler s r = (reply, s') → reply ≠ .raises →
      keepAliveRequest r = true → OneResponse true reply sends →
      Serves handler s' (stream.drop r.consumed) log →
      Serves handler s stream (.handled r :: sends.map .sent ++ log)
  | last {s s' : σ} {stream : Bytes} {r : Request} {reply : Reply} {sends : List Bytes} :
      Complete stream r → handler s r = (reply, s') →
      reply = .raises ∨ keepAliveRequest r = false →
      OneResponse (keepAliveRequest r) reply sends →
      Serves handler s stream (.handled r :: sends.map .sent)

/-- The connection is defined and serves the stream that it receives. -/
def Orderly (handler : σ → Request → Reply × σ) (s : σ) (input : List Received) : Prop :=
  ∃ answers, connection handler s input = some answers ∧
    Serves handler s (input.flatMap Received.bytes) (answers.flatMap Answer.events)

/-- The places of a stream behind requests after which the connection stays, with the state of the
handler there. -/
inductive Boundary (handler : σ → Request → Reply × σ) : σ → Bytes → σ → Nat → Prop
  | start (s : σ) (stream : Bytes) : Boundary handler s stream s 0
  | next {s s' s'' : σ} {stream : Bytes} {r : Request} {reply : Reply} {o : Nat} :
      Complete stream r → handler s r = (reply, s') → reply.raised = false →
      keepAliveRequest r = true → Boundary handler s' (stream.drop r.consumed) s'' o →
      Boundary handler s stream s'' (r.consumed + o)

/-- No piece ends where the head of a request is open, no chunk size overflows, and no stream raises
behind its head. -/
structure Undisturbed (handler : σ → Request → Reply × σ) (s : σ) (buffer : Bytes)
    (input : List Received) : Prop where
  cuts : ∀ s' o, Boundary handler s (buffer ++ input.flatMap Received.bytes) s' o →
    ∀ b ∈ cuts Received.bytes buffer input, ¬OpenHead (b.drop o)
  defined : ∀ s' o, Boundary handler s (buffer ++ input.flatMap Received.bytes) s' o →
    httpParse ((buffer ++ input.flatMap Received.bytes).drop o) ≠ none
  unbroken : ∀ s' o r, Boundary handler s (buffer ++ input.flatMap Received.bytes) s' o →
    Complete ((buffer ++ input.flatMap Received.bytes).drop o) r → (handler s' r).1.broken = false

section Reading

variable {buffer b : Bytes} {input rest : List Received} {r : Request}

theorem readUntil_of_some {x : Option ParseResult} (h : codeAnswer buffer = some x) :
    readUntil codeAnswer Received.bytes buffer input = some (x, buffer, input) := by
  cases input with
  | nil => rw [readUntil, h]; rfl
  | cons p input => rw [readUntil, h]

/-- The result of reading a request. -/
def Next.ofRead : Option (Option ParseResult × Bytes × List Received) → Option Next
  | none => some .closed
  | some (x, buffer, input) => Next.of buffer input (some .closed) x

theorem Next.of_answer {x : Option ParseResult} (h : codeAnswer buffer = some x) (later : Option Next) :
    Next.of buffer input later (httpParse buffer) = Next.ofRead (some (x, buffer, input)) := by
  rw [codeAnswer_some h, ofRead]
  cases x with
  | none => rfl
  | some res =>
    cases res with
    | incomplete =>
      rw [codeAnswer, codeAnswer_some h] at h
      cases h
    | rejected => rfl
    | request r => rfl

theorem awaitRequest_eq (h : codeAnswer buffer = none) :
    awaitRequest buffer input = Next.ofRead (readUntil codeAnswer Received.bytes buffer input) := by
  induction input generalizing buffer with
  | nil =>
    rw [readUntil, h]
    rfl
  | cons p input ih =>
    rw [readUntil, h]
    cases p with
    | timeout =>
      have hsame : buffer ++ Received.timeout.bytes = buffer := List.append_nil buffer
      rw [hsame]
      exact ih h
    | data first rest =>
      rw [awaitRequest]
      dsimp only [Received.bytes]
      cases hb : codeAnswer (buffer ++ first :: rest) with
      | none =>
        rw [codeAnswer_none hb]
        exact ih hb
      | some x => rw [readUntil_of_some hb, Next.of_answer hb]

/-- The inner loop reads until `http.parse` has an answer. -/
theorem nextRequest_eq (buffer : Bytes) (input : List Received) :
    nextRequest buffer input =
      Next.ofRead (readUntil codeAnswer Received.bytes buffer input) := by
  have hparse : (if 0 < buffer.length then httpParse buffer else some .incomplete) = httpParse buffer := by
    split_ifs with hlen
    · rfl
    · rw [List.length_eq_zero_iff.mp (Nat.eq_zero_of_not_pos hlen)]
      rfl
  rw [nextRequest, hparse]
  cases hb : codeAnswer buffer with
  | none =>
    rw [codeAnswer_none hb]
    exact awaitRequest_eq hb
  | some x => rw [readUntil_of_some hb, Next.of_answer hb]

end Reading

section Serving

variable {handler : σ → Request → Reply × σ} {s s' : σ} {buffer b stream : Bytes}
  {input rest : List Received} {r : Request} {reply : Reply} {sends : List Bytes} {log : List Event}
  {keepAlive : Bool} {fuel : Nat}

theorem oneResponse_iff :
    OneResponse keepAlive reply sends ↔ sends = reply.sends keepAlive ∧ reply.broken = false := by
  constructor
  · intro h
    cases h with
    | error => exact ⟨rfl, rfl⟩
    | text raw => exact ⟨rfl, rfl⟩
    | stream head chunks => exact ⟨rfl, rfl⟩
  · rintro ⟨rfl, hb⟩
    cases reply with
    | raises => exact .error
    | text raw => exact .text raw
    | stream st =>
      obtain ⟨head, chunks, raises⟩ := st
      obtain rfl : raises = false := hb
      exact .stream head chunks

theorem raised_of_not_broken (hb : reply.broken = false) : reply.raised = true ↔ reply = .raises := by
  cases reply with
  | raises => exact iff_of_true rfl rfl
  | text raw => exact iff_of_false Bool.false_ne_true (by intro h; cases h)
  | stream st =>
    have hr : Reply.raised (.stream st) = false := hb
    exact iff_of_false (by rw [hr]; exact Bool.false_ne_true) (by intro h; cases h)

/-- What a log that starts with a request says. -/
theorem Serves.handled (h : Serves handler s stream (.handled r :: log)) :
    Complete stream r ∧ ∃ sends, OneResponse (keepAliveRequest r) (handler s r).1 sends ∧
      (((handler s r).1 ≠ .raises ∧ keepAliveRequest r = true ∧
        ∃ log', log = sends.map .sent ++ log' ∧
          Serves handler (handler s r).2 (stream.drop r.consumed) log') ∨
        ((handler s r).1 = .raises ∨ keepAliveRequest r = false) ∧ log = sends.map .sent) := by
  generalize hlog : Event.handled r :: log = l at h
  cases h with
  | waits => cases hlog
  | bad => cases hlog
  | goesOn hc hh hne hk hone hrest =>
    obtain ⟨hr, rfl⟩ := List.cons.inj hlog
    cases hr
    rw [hh, hk]
    exact ⟨hc, _, hone, .inl ⟨hne, rfl, _, rfl, hrest⟩⟩
  | last hc hh hstop hone =>
    obtain ⟨hr, rfl⟩ := List.cons.inj hlog
    cases hr
    rw [hh]
    exact ⟨hc, _, hone, .inr ⟨hstop, rfl⟩⟩

/-- Where a request is complete and the connection stays, the rest of the log is that of the rest of
the stream. -/
theorem serves_next (hc : Complete stream r) (hh : handler s r = (reply, s')) (hr : reply.raised = false)
    (hk : keepAliveRequest r = true) :
    Serves handler s stream ((Answer.reply r reply).events ++ log) ↔
      Serves handler s' (stream.drop r.consumed) log := by
  have hne : reply ≠ .raises := by
    rintro rfl
    cases hr
  have hbroken : reply.broken = false := by
    cases reply with
    | raises => rfl
    | text raw => rfl
    | stream st => exact hr
  constructor
  · intro h
    obtain ⟨-, sends, hone, hor⟩ := h.handled
    rw [hh, hk] at hone
    rw [hh] at hor
    obtain ⟨rfl, -⟩ := oneResponse_iff.mp hone
    rcases hor with ⟨-, -, log', hlog, hrest⟩ | ⟨hstop, -⟩
    · rw [hk] at hlog
      rwa [List.append_cancel_left hlog]
    · rcases hstop with hstop | hstop
      · exact absurd hstop hne
      · rw [hk] at hstop
        cases hstop
  · intro h
    have hall := Serves.goesOn hc hh hne hk (oneResponse_iff.mpr ⟨rfl, hbroken⟩) h
    rw [Answer.events, hk]
    exact hall

/-- Where it ends with the request, the response has to be one. -/
theorem serves_last (hc : Complete stream r) (hh : handler s r = (reply, s'))
    (hstop : ¬(reply.raised = false ∧ keepAliveRequest r = true)) :
    Serves handler s stream (Answer.reply r reply).events ↔ reply.broken = false := by
  constructor
  · intro h
    obtain ⟨-, sends, hone, -⟩ := h.handled
    rw [hh] at hone
    exact (oneResponse_iff.mp hone).2
  · intro hbroken
    refine .last hc hh ?_ (oneResponse_iff.mpr ⟨rfl, hbroken⟩)
    by_cases hk : keepAliveRequest r = true
    · refine .inl ((raised_of_not_broken hbroken).mp ?_)
      by_contra hr
      exact hstop ⟨Bool.eq_false_iff.mpr hr, hk⟩
    · exact .inr (Bool.eq_false_iff.mpr hk)

theorem handleConnection_eq (fuel : Nat) (s : σ) (buffer : Bytes) (input : List Received) :
    handleConnection handler (fuel + 1) s buffer input =
      match readUntil codeAnswer Received.bytes buffer input with
      | none => some []
      | some (none, _, _) => none
      | some (some .incomplete, _, _) => some []
      | some (some .rejected, _, _) => some [.bad]
      | some (some (.request r), b, rest) =>
        if (!(handler s r).1.raised && keepAliveRequest r) = true then
          (handleConnection handler fuel (handler s r).2 (b.drop r.consumed) rest).map
            (.reply r (handler s r).1 :: ·)
        else some [.reply r (handler s r).1] := by
  rw [handleConnection, nextRequest_eq]
  cases readUntil codeAnswer Received.bytes buffer input with
  | none => rfl
  | some x =>
    obtain ⟨x, b, rest⟩ := x
    cases x with
    | none => rfl
    | some res =>
      cases res with
      | incomplete => rfl
      | rejected => rfl
      | request r => rfl

/-- A buffer where a head is open is taken for a request that is not there. -/
theorem open_disturbs (hcut : ∃ c ∈ cuts Received.bytes buffer input, OpenHead c) :
    ¬∃ answers, handleConnection handler (fuel + 1) s buffer input = some answers ∧
      Serves handler s (buffer ++ input.flatMap Received.bytes) (answers.flatMap Answer.events) := by
  rintro ⟨answers, hrun, hserves⟩
  obtain ⟨c, hc, ho⟩ := hcut
  rw [handleConnection_eq] at hrun
  obtain ⟨rc, hrc, -⟩ := ho.httpParse
  have hanswer : codeAnswer c ≠ none := by
    intro hnone
    rw [codeAnswer_none hnone] at hrc
    cases hrc
  cases hread : readUntil codeAnswer Received.bytes buffer input with
  | none => exact hanswer (readUntil_none hread c hc)
  | some x =>
    obtain ⟨x, b, rest⟩ := x
    obtain ⟨hx, hstream, before, hcuts, hbefore⟩ := readUntil_some hread
    -- the reader stops at `c` or in front of it
    have hbc : b <+: c := by
      rw [hcuts] at hc
      rcases List.mem_append.mp hc with hc | hc
      · exact absurd (hbefore c hc).1 hanswer
      · exact prefix_of_mem_cuts hc
    have hb : OpenHead b := by
      by_contra hb
      rw [codeAnswer_eq hb] at hx
      obtain ⟨t, rfl⟩ := hbc
      exact (wholeAnswer_some (wholeAnswer_stable b t x hx)).1 ho
    obtain ⟨r, hr, hlen⟩ := hb.httpParse
    obtain rfl : x = some (.request r) := (codeAnswer_some hx).symm.trans hr
    have hlog : ∃ log, answers.flatMap Answer.events = .handled r :: log := by
      rw [hread] at hrun
      dsimp only at hrun
      split_ifs at hrun
      · obtain ⟨answers', -, rfl⟩ := Option.map_eq_some_iff.mp hrun
        exact ⟨_, rfl⟩
      · rw [← Option.some.inj hrun]
        exact ⟨_, rfl⟩
    obtain ⟨log, hlog⟩ := hlog
    rw [hlog] at hserves
    have hcomplete := hserves.handled.1
    rw [← hstream] at hcomplete
    exact (hcomplete.of_prefix (Nat.le_of_eq hlen)).2 hb

theorem Boundary.of_not_complete {o : Nat} (hb : Boundary handler s stream s' o)
    (hno : ∀ r, ¬Complete stream r) : s' = s ∧ o = 0 := by
  cases hb with
  | start => exact ⟨rfl, rfl⟩
  | next hc => exact absurd hc (hno _)

/-- Where no request is complete, only the start counts. -/
theorem undisturbed_of_not_complete (hno : ∀ r, ¬Complete (buffer ++ input.flatMap Received.bytes) r)
    (hcuts : ∀ c ∈ cuts Received.bytes buffer input, ¬OpenHead c) :
    Undisturbed handler s buffer input ↔ httpParse (buffer ++ input.flatMap Received.bytes) ≠ none := by
  constructor
  · intro h
    exact h.defined s 0 (.start _ _)
  · intro h
    constructor
    · intro s' o hb c hc
      obtain ⟨-, rfl⟩ := hb.of_not_complete hno
      exact hcuts c hc
    · intro s' o hb
      obtain ⟨-, rfl⟩ := hb.of_not_complete hno
      exact h
    · intro s' o r hb hc
      obtain ⟨-, rfl⟩ := hb.of_not_complete hno
      exact absurd hc (hno r)

theorem Complete.unique {r r' : Request} (h : Complete b r) (h' : Complete b r') : r = r' :=
  ParseResult.request.inj (Option.some.inj (h.1.symm.trans h'.1))

/-- Where the connection ends with the request, only the start counts. -/
theorem undisturbed_last (hc : Complete (buffer ++ input.flatMap Received.bytes) r)
    (hh : handler s r = (reply, s')) (hstop : ¬(reply.raised = false ∧ keepAliveRequest r = true))
    (hcuts : ∀ c ∈ cuts Received.bytes buffer input, ¬OpenHead c) :
    Undisturbed handler s buffer input ↔ reply.broken = false := by
  have hstart : ∀ s'' o, Boundary handler s (buffer ++ input.flatMap Received.bytes) s'' o →
      s'' = s ∧ o = 0 := by
    intro s'' o hb
    cases hb with
    | start => exact ⟨rfl, rfl⟩
    | next hc' hh' hr' hk' =>
      obtain rfl := hc.unique hc'
      rw [hh] at hh'
      cases hh'
      exact absurd ⟨hr', hk'⟩ hstop
  constructor
  · intro h
    have hu := h.unbroken s 0 r (.start _ _) hc
    rwa [hh] at hu
  · intro h
    constructor
    · intro s'' o hb c hcut
      obtain ⟨-, rfl⟩ := hstart s'' o hb
      exact hcuts c hcut
    · intro s'' o hb
      obtain ⟨-, rfl⟩ := hstart s'' o hb
      rw [List.drop_zero, hc.1]
      exact Option.some_ne_none _
    · intro s'' o r' hb hc'
      obtain ⟨rfl, rfl⟩ := hstart s'' o hb
      obtain rfl := hc.unique hc'
      rw [hh]
      exact h

/-- Where it stays, the start and what counts behind the request. -/
theorem undisturbed_next (hc : Complete (buffer ++ input.flatMap Received.bytes) r)
    (hh : handler s r = (reply, s')) (hr : reply.raised = false) (hk : keepAliveRequest r = true)
    (hstream : b ++ rest.flatMap Received.bytes = buffer ++ input.flatMap Received.bytes)
    (hlen : r.consumed ≤ b.length) {before : List Bytes}
    (hsplit : cuts Received.bytes buffer input = before ++ cuts Received.bytes b rest)
    (hbefore : ∀ c ∈ before, c.length ≤ r.consumed)
    (hcuts : ∀ c ∈ cuts Received.bytes buffer input, ¬OpenHead c) :
    Undisturbed handler s buffer input ↔ Undisturbed handler s' (b.drop r.consumed) rest := by
  have hrest : b.drop r.consumed ++ rest.flatMap Received.bytes =
      (buffer ++ input.flatMap Received.bytes).drop r.consumed := by
    rw [← hstream, List.drop_append_of_le_length hlen]
  have hnil : ∀ (c : Bytes) (n : Nat), c.length ≤ n → ¬OpenHead (c.drop n) := by
    rintro c n hn ⟨line, ls, h, heq, -⟩
    rw [List.drop_eq_nil_of_le hn] at heq
    simp at heq
  have hdrop : cuts Received.bytes (b.drop r.consumed) rest =
      (cuts Received.bytes b rest).map (List.drop r.consumed) := cuts_drop hlen
  have hbroken : reply.broken = false := by
    cases reply with
    | raises => rfl
    | text raw => rfl
    | stream st => exact hr
  constructor
  · intro h
    have hboundary : ∀ s'' o,
        Boundary handler s' (b.drop r.consumed ++ rest.flatMap Received.bytes) s'' o →
        Boundary handler s (buffer ++ input.flatMap Received.bytes) s'' (r.consumed + o) := by
      intro s'' o hb
      rw [hrest] at hb
      exact .next hc hh hr hk hb
    constructor
    · intro s'' o hb c hcut
      rw [hdrop] at hcut
      obtain ⟨c', hmem, rfl⟩ := List.mem_map.mp hcut
      rw [List.drop_drop]
      refine h.cuts s'' _ (hboundary s'' o hb) c' ?_
      rw [hsplit]
      exact List.mem_append_right _ hmem
    · intro s'' o hb
      rw [hrest, List.drop_drop]
      exact h.defined s'' _ (hboundary s'' o hb)
    · intro s'' o r' hb hc'
      rw [hrest, List.drop_drop] at hc'
      exact h.unbroken s'' _ r' (hboundary s'' o hb) hc'
  · intro h
    constructor
    · intro s'' o hb c hcut
      cases hb with
      | start => exact hcuts c hcut
      | next hc' hh' hr' hk' hb =>
        obtain rfl := hc.unique hc'
        rw [hh] at hh'
        cases hh'
        rw [hsplit] at hcut
        rcases List.mem_append.mp hcut with hcut | hcut
        · exact hnil c _ (Nat.le_trans (hbefore c hcut) (Nat.le_add_right _ _))
        · rw [← List.drop_drop]
          refine h.cuts s'' _ (by rw [hrest]; exact hb) _ ?_
          rw [hdrop]
          exact List.mem_map_of_mem hcut
    · intro s'' o hb
      cases hb with
      | start =>
        rw [List.drop_zero, hc.1]
        exact Option.some_ne_none _
      | next hc' hh' hr' hk' hb =>
        obtain rfl := hc.unique hc'
        rw [hh] at hh'
        cases hh'
        rw [← List.drop_drop, ← hrest]
        exact h.defined s'' _ (by rw [hrest]; exact hb)
    · intro s'' o r' hb hcr
      cases hb with
      | start =>
        obtain rfl := hc.unique hcr
        rw [hh]
        exact hbroken
      | next hc' hh' hr' hk' hb =>
        obtain rfl := hc.unique hc'
        rw [hh] at hh'
        cases hh'
        rw [← List.drop_drop, ← hrest] at hcr
        exact h.unbroken s'' _ r' (by rw [hrest]; exact hb) hcr

/-- Reading from a buffer, with enough fuel for the bytes that are left. -/
theorem serves_iff (hfuel : (buffer ++ input.flatMap Received.bytes).length < fuel) :
    (∃ answers, handleConnection handler fuel s buffer input = some answers ∧
      Serves handler s (buffer ++ input.flatMap Received.bytes) (answers.flatMap Answer.events)) ↔
      Undisturbed handler s buffer input := by
  induction fuel generalizing s buffer input with
  | zero => omega
  | succ fuel ih =>
    by_cases hcut : ∃ c ∈ cuts Received.bytes buffer input, OpenHead c
    · refine iff_of_false (open_disturbs hcut) fun h => ?_
      obtain ⟨c, hc, ho⟩ := hcut
      exact h.cuts s 0 (.start _ _) c hc ho
    have hcuts : ∀ c ∈ cuts Received.bytes buffer input, ¬OpenHead c := by
      intro c hc ho
      exact hcut ⟨c, hc, ho⟩
    have hwhole := hcuts _ whole_mem_cuts
    have hread := readUntil_eq wholeAnswer_stable fun c hc => codeAnswer_eq (hcuts c hc)
    rw [handleConnection_eq]
    cases hr : readUntil codeAnswer Received.bytes buffer input with
    | none =>
      have hinc : httpParse (buffer ++ input.flatMap Received.bytes) = some .incomplete := by
        rw [hr] at hread
        rw [← codeAnswer_eq hwhole] at hread
        exact codeAnswer_none hread.symm
      have hno : ∀ r, ¬Complete (buffer ++ input.flatMap Received.bytes) r := by
        rintro r ⟨hp, -⟩
        rw [hinc] at hp
        cases hp
      refine iff_of_true ⟨[], rfl, .waits (.inl hinc)⟩ ?_
      rw [undisturbed_of_not_complete hno hcuts, hinc]
      exact Option.some_ne_none _
    | some x =>
      obtain ⟨x, b, rest⟩ := x
      obtain ⟨hx, hstream, before, hsplit, hbefore⟩ := readUntil_some hr
      rw [hr] at hread
      have hparse := (wholeAnswer_some hread.symm).2
      cases x with
      | none =>
        have hno : ∀ r, ¬Complete (buffer ++ input.flatMap Received.bytes) r := by
          rintro r ⟨hp, -⟩
          rw [hparse] at hp
          cases hp
        refine iff_of_false (by rintro ⟨answers, h, -⟩; cases h) ?_
        rw [undisturbed_of_not_complete hno hcuts]
        exact not_not.mpr hparse
      | some res =>
        cases res with
        | incomplete =>
          rw [codeAnswer, codeAnswer_some hx] at hx
          cases hx
        | rejected =>
          have hno : ∀ r, ¬Complete (buffer ++ input.flatMap Received.bytes) r := by
            rintro r ⟨hp, -⟩
            rw [hparse] at hp
            cases hp
          refine iff_of_true ⟨[.bad], rfl, .bad hparse⟩ ?_
          rw [undisturbed_of_not_complete hno hcuts, hparse]
          exact Option.some_ne_none _
        | request r =>
          have hc : Complete (buffer ++ input.flatMap Received.bytes) r :=
            wholeAnswer_complete.mp hread.symm
          have hlen : r.consumed ≤ b.length := by
            have hb : b ∈ cuts Received.bytes buffer input := by
              rw [hsplit]
              exact List.mem_append_right _ mem_cuts_self
            rw [codeAnswer_eq (hcuts b hb)] at hx
            exact (wholeAnswer_complete.mp hx).le_length
          obtain ⟨used, left, -, -, hpos, -⟩ := hc.local
          have hh : handler s r = ((handler s r).1, (handler s r).2) := rfl
          dsimp only
          by_cases hgo : (handler s r).1.raised = false ∧ keepAliveRequest r = true
          · have hgo' : (!(handler s r).1.raised && keepAliveRequest r) = true := by
              rw [hgo.1, hgo.2]
              rfl
            have hrest : b.drop r.consumed ++ rest.flatMap Received.bytes =
                (buffer ++ input.flatMap Received.bytes).drop r.consumed := by
              rw [← hstream, List.drop_append_of_le_length hlen]
            have hshort : (b.drop r.consumed ++ rest.flatMap Received.bytes).length < fuel := by
              have hle := hc.le_length
              rw [hrest, List.length_drop]
              omega
            have hearlier : ∀ c ∈ before, c.length ≤ r.consumed := by
              intro c hcb
              by_contra hlt
              obtain ⟨hnone, hpre⟩ := hbefore c hcb
              have hcc : c ∈ cuts Received.bytes buffer input := by
                rw [hsplit]
                exact List.mem_append_left _ hcb
              obtain ⟨t, ht⟩ := cut_prefix hcc
              rw [← ht] at hc
              have hcr := (hc.of_prefix (by omega)).1
              rw [codeAnswer_none hnone] at hcr
              cases hcr
            rw [if_pos hgo', undisturbed_next hc hh hgo.1 hgo.2 hstream hlen hsplit hearlier hcuts,
              ← ih hshort, hrest]
            constructor
            · rintro ⟨answers, hrun, hserves⟩
              obtain ⟨answers', hrun', rfl⟩ := Option.map_eq_some_iff.mp hrun
              rw [List.flatMap_cons] at hserves
              exact ⟨answers', hrun', (serves_next hc hh hgo.1 hgo.2).mp hserves⟩
            · rintro ⟨answers, hrun, hserves⟩
              refine ⟨_, Option.map_eq_some_iff.mpr ⟨answers, hrun, rfl⟩, ?_⟩
              rw [List.flatMap_cons]
              exact (serves_next hc hh hgo.1 hgo.2).mpr hserves
          · have hgo' : ¬(!(handler s r).1.raised && keepAliveRequest r) = true := by
              intro h
              refine hgo ?_
              simpa using h
            rw [if_neg hgo', undisturbed_last hc hh hgo hcuts, ← serves_last hc hh hgo]
            constructor
            · rintro ⟨answers, hrun, hserves⟩
              rw [← Option.some.inj hrun] at hserves
              simpa using hserves
            · intro hserves
              exact ⟨_, rfl, by simpa using hserves⟩

theorem Orderly.undisturbed (h : Orderly handler s input) : Undisturbed handler s [] input :=
  (serves_iff (Nat.lt_succ_self _)).mp h

theorem Undisturbed.orderly (h : Undisturbed handler s [] input) : Orderly handler s input :=
  (serves_iff (Nat.lt_succ_self _)).mpr h

theorem not_complete_of_rejected (h : httpParse stream = some .rejected) : ¬Complete stream r := by
  rintro ⟨hp, -⟩
  rw [h] at hp
  cases hp

theorem not_complete_of_waits (h : httpParse stream = some .incomplete ∨ OpenHead stream) :
    ¬Complete stream r := by
  rintro ⟨hp, ho⟩
  rcases h with h | h
  · rw [h] at hp
    cases hp
  · exact ho h

theorem not_rejected_of_waits (h : httpParse stream = some .incomplete ∨ OpenHead stream) :
    httpParse stream ≠ some .rejected := by
  intro hp
  rcases h with h | h
  · rw [h] at hp
    cases hp
  · obtain ⟨r, hr, -⟩ := h.httpParse
    rw [hp] at hr
    cases hr

/-- A stream has one log, so that it does not matter in which pieces it arrives. -/
theorem Serves.unique {log' : List Event} (h : Serves handler s stream log)
    (h' : Serves handler s stream log') : log = log' := by
  induction h generalizing log' with
  | waits hw =>
    cases h' with
    | waits => rfl
    | bad hp => exact absurd hp (not_rejected_of_waits hw)
    | goesOn hc => exact absurd hc (not_complete_of_waits hw)
    | last hc => exact absurd hc (not_complete_of_waits hw)
  | bad hp =>
    cases h' with
    | waits hw => exact absurd hp (not_rejected_of_waits hw)
    | bad => rfl
    | goesOn hc => exact absurd hc (not_complete_of_rejected hp)
    | last hc => exact absurd hc (not_complete_of_rejected hp)
  | goesOn hc hh hne hk hone hrest ih =>
    cases h' with
    | waits hw => exact absurd hc (not_complete_of_waits hw)
    | bad hp => exact absurd hc (not_complete_of_rejected hp)
    | goesOn hc' hh' hne' hk' hone' hrest' =>
      obtain rfl := hc.unique hc'
      rw [hh] at hh'
      cases hh'
      obtain ⟨rfl, -⟩ := oneResponse_iff.mp hone
      obtain ⟨rfl, -⟩ := oneResponse_iff.mp hone'
      rw [ih hrest']
    | last hc' hh' hstop' =>
      obtain rfl := hc.unique hc'
      rw [hh] at hh'
      cases hh'
      rcases hstop' with hr | hk'
      · exact absurd hr hne
      · rw [hk] at hk'
        cases hk'
  | last hc hh hstop hone =>
    cases h' with
    | waits hw => exact absurd hc (not_complete_of_waits hw)
    | bad hp => exact absurd hc (not_complete_of_rejected hp)
    | goesOn hc' hh' hne' hk' =>
      obtain rfl := hc.unique hc'
      rw [hh] at hh'
      cases hh'
      rcases hstop with hr | hk
      · exact absurd hr hne'
      · rw [hk] at hk'
        cases hk'
    | last hc' hh' hstop' hone' =>
      obtain rfl := hc.unique hc'
      rw [hh] at hh'
      cases hh'
      obtain ⟨rfl, -⟩ := oneResponse_iff.mp hone
      obtain ⟨rfl, -⟩ := oneResponse_iff.mp hone'
      rfl

end Serving

/-- A stream that raises behind its head. -/
def breakOff (_ : Unit) (_ : Request) : Reply × Unit :=
  (.stream ⟨ascii "HTTP/1.1 200 OK\r\n\r\n", [], true⟩, ())

theorem openHead_requestLine : OpenHead (ascii "GET / HTTP/1.1" ++ [13, 10]) :=
  ⟨ascii "GET / HTTP/1.1", [], .empty, rfl, by decide, by decide, by simp, rfl, rfl, .inl rfl⟩

end ToiLang.Http
