import ToiLang.Vm.Effect

namespace ToiLang

/-- The handler's statement can still take an exception. -/
def ExceptionHandler.able (h : ExceptionHandler) : Bool :=
  (h.hasExcept && !h.inExcept) || h.hasFinally

/-- The handlers belong to frames that exist, those of later frames first. -/
structure ThreadControl.Sorted (t : ThreadControl) : Prop where
  pairwise : t.handlers.Pairwise fun a b => b.frameCount ≤ a.frameCount
  bound : ∀ h ∈ t.handlers, 0 < h.frameCount ∧ h.frameCount ≤ t.frameCount

namespace Ctl

@[simp] theorem cutFrames_handlers (c : Ctl) (n : Nat) :
    (c.cutFrames n).thread.handlers = c.thread.handlers := by simp [cutFrames]

theorem cutFrames_frameCount (c : Ctl) {n : Nat} (h : n ≤ c.thread.frameCount) :
    (c.cutFrames n).thread.frameCount = n := by
  simp only [cutFrames, thread_setThread]
  omega

theorem cutFrames_cutFrames (c : Ctl) {m n : Nat} (hm : m ≤ c.thread.frameCount) (hn : n ≤ m) :
    (c.cutFrames m).cutFrames n = c.cutFrames n := by
  have h : c.thread.frameCount - (c.thread.frameCount - m) -
      (c.thread.frameCount - (c.thread.frameCount - m) - n) =
      c.thread.frameCount - (c.thread.frameCount - n) := by omega
  simp only [cutFrames, thread_setThread, setThread_setThread, h]

theorem uncaught_cutFrames (c : Ctl) (n : Nat) (hs : List ExceptionHandler) :
    (c.cutFrames n).uncaught hs = c.uncaught hs := by
  simp [uncaught, cutFrames]

/-- Where the unwinder stops. -/
def take (c : Ctl) (h : ExceptionHandler) (rest : List ExceptionHandler) : Ctl :=
  if h.hasExcept && !h.inExcept then (c.cutFrames h.frameCount).catchException h rest
  else (c.cutFrames h.frameCount).enterFinally h rest

/-- Control as a handler of frame count `n` leaves it. -/
def enterAt (c : Ctl) (n : Nat) (ip : CodePtr) : Ctl :=
  { c with
    run := { c.run with frameThread := c.currentThread, frameIndex := n - 1, ip := ip }
    control := .fetch }

theorem take_except (c : Ctl) {h : ExceptionHandler} (rest : List ExceptionHandler)
    (hx : (h.hasExcept && !h.inExcept) = true) (hle : h.frameCount ≤ c.thread.frameCount) :
    c.take h rest = (c.enterAt h.frameCount h.exceptIp).setThread { c.thread with
      frameCount := h.frameCount, handlers := { h with inExcept := true } :: rest
      hasException := false, exception := .nil } := by
  have hn : c.thread.frameCount - (c.thread.frameCount - h.frameCount) = h.frameCount := by omega
  simp only [take, hx, ↓reduceIte, catchException, enterHandler, cutFrames, enterAt,
    thread_setThread, hn]
  simp [setThread]

theorem take_finally (c : Ctl) {h : ExceptionHandler} (rest : List ExceptionHandler)
    (hx : ¬(h.hasExcept && !h.inExcept) = true) (hle : h.frameCount ≤ c.thread.frameCount) :
    c.take h rest = (c.enterAt h.frameCount h.finallyIp).setThread { c.thread with
      frameCount := h.frameCount, handlers := rest } := by
  have hn : c.thread.frameCount - (c.thread.frameCount - h.frameCount) = h.frameCount := by omega
  rw [take, if_neg hx]
  simp only [enterFinally, enterHandler, cutFrames, enterAt, thread_setThread, hn]
  simp [setThread]

/-- The unwinder passes the handlers that can take nothing and stops at the first that can. -/
theorem unwind_eq (c : Ctl) {hs : List ExceptionHandler}
    (hp : hs.Pairwise fun a b => b.frameCount ≤ a.frameCount)
    (hb : ∀ h ∈ hs, 0 < h.frameCount ∧ h.frameCount ≤ c.thread.frameCount) :
    (hs.find? ExceptionHandler.able = none ∧ c.unwind hs = c.uncaught []) ∨
      ∃ pre h rest, hs = pre ++ h :: rest ∧ hs.find? ExceptionHandler.able = some h ∧
        c.unwind hs = c.take h rest := by
  induction hs generalizing c with
  | nil => exact .inl ⟨rfl, rfl⟩
  | cons h hs ih =>
    obtain ⟨hpos, hle⟩ := hb h List.mem_cons_self
    have hcut := c.cutFrames_frameCount hle
    have hne : (c.cutFrames h.frameCount).thread.frameCount ≠ 0 := by omega
    simp only [unwind, hne, ↓reduceIte]
    by_cases hable : h.able = true
    · refine .inr ⟨[], h, hs, rfl, by simp [hable], ?_⟩
      unfold take
      split_ifs with hx hf
      · rfl
      · rfl
      · exact absurd hable (by simp [ExceptionHandler.able, hx, hf])
    · have hx : ¬(h.hasExcept && !h.inExcept) = true := fun hx => hable (by simp [ExceptionHandler.able, hx])
      have hf : ¬h.hasFinally = true := fun hf => hable (by simp [ExceptionHandler.able, hf])
      rw [if_neg hx, if_neg hf]
      obtain ⟨hmax, hp'⟩ := List.pairwise_cons.mp hp
      have hb' : ∀ g ∈ hs, 0 < g.frameCount ∧
          g.frameCount ≤ (c.cutFrames h.frameCount).thread.frameCount := by
        intro g hg
        rw [hcut]
        exact ⟨(hb g (List.mem_cons_of_mem _ hg)).1, hmax g hg⟩
      have hfind : (h :: hs).find? ExceptionHandler.able = hs.find? ExceptionHandler.able := by
        simp [hable]
      rcases ih (c.cutFrames h.frameCount) hp' hb' with ⟨hnone, hu⟩ | ⟨pre, g, rest, hs', hg, hu⟩
      · refine .inl ⟨hfind.trans hnone, ?_⟩
        rw [hu, uncaught_cutFrames]
      · refine .inr ⟨h :: pre, g, rest, by rw [hs', List.cons_append], hfind.trans hg, ?_⟩
        have hgm : g ∈ hs := by simp [hs']
        rw [hu, take, take, c.cutFrames_cutFrames hle (hmax g hgm)]

end Ctl

end ToiLang
