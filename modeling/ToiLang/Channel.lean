import ToiLang.LinkedList
import ToiLang.Transition

namespace ToiLang

open LinkedList (Node Queue)

variable {α : Type}

/-- `ChannelData`, with the nodes that are allocated. -/
structure ChannelData (α : Type) where
  nodes : Nat → Option (Node Nat α)
  head : Option Nat
  tail : Option Nat
  count : Int
  capacity : Int
  closed : Bool

/-- What a stretch of code that runs under a lock does. -/
inductive Locked (σ : Type)
  | done (s : σ)
  | waits
  | undefined

namespace Locked

def state? {σ : Type} : Locked σ → Option σ
  | done s => some s
  | waits | undefined => none

def map {σ τ : Type} (f : σ → τ) : Locked σ → Locked τ
  | done s => done (f s)
  | waits => waits
  | undefined => undefined

end Locked

/-- The data of `thread.channel(capacity)`. -/
def threadChannel (capacity : Int) : ChannelData α where
  nodes := fun _ => none
  head := none
  tail := none
  count := 0
  capacity := capacity
  closed := false

/-- The new node `a` behind the others. -/
def addNode (d : ChannelData α) (a : Nat) (v : α) : Locked (ChannelData α) :=
  let nodes := Function.update d.nodes a (some ⟨v, none⟩)
  match d.tail with
  | none => .done { d with nodes := nodes, head := some a, tail := some a, count := d.count + 1 }
  | some t =>
    match d.nodes t with
    | none => .undefined
    | some n =>
      .done { d with
        nodes := Function.update nodes t (some { n with next := some a })
        tail := some a
        count := d.count + 1 }

/-- The value of the first node, which is freed. -/
def takeNode (d : ChannelData α) : Locked (ChannelData α × α) :=
  match d.head with
  | none => .undefined
  | some a =>
    match d.nodes a with
    | none => .undefined
    | some n =>
      .done ({ d with
        nodes := Function.update d.nodes a none
        head := n.next
        tail := if n.next = none then none else d.tail
        count := d.count - 1 }, n.value)

/-- `channel_send` with the mutex held: the answer, and the channel it leaves. -/
def channelSend (d : ChannelData α) (a : Nat) (v : α) : Locked (ChannelData α × Bool) :=
  if 0 < d.capacity ∧ d.capacity ≤ d.count ∧ d.closed = false then .waits
  else if d.closed then .done (d, false)
  else (addNode d a v).map fun d => (d, true)

/-- `channel_recv` with the mutex held. -/
def channelRecv (d : ChannelData α) : Locked (ChannelData α × Option α) :=
  if d.count = 0 ∧ d.closed = false then .waits
  else if d.count = 0 ∧ d.closed = true then .done (d, none)
  else (takeNode d).map fun (d, v) => (d, some v)

def channelTryrecv (d : ChannelData α) : Locked (ChannelData α × Option α) :=
  if d.count = 0 then .done (d, none)
  else (takeNode d).map fun (d, v) => (d, some v)

def channelClose (d : ChannelData α) : ChannelData α := { d with closed := true }

/-- Where a thread is: outside of the channel's functions, or in one that takes the mutex. -/
inductive ChannelUse (α : Type)
  | outside
  | sending (v : α)
  | receiving

/-- A channel with the threads that use it, the values of the sends that returned true and those
that the receivers got. -/
structure Channel (α : Type) where
  data : ChannelData α
  threads : Nat → ChannelUse α
  sent : List α
  received : List α

inductive ChannelAct (α : Type)
  | send (v : α)
  | recv
  | tryrecv
  | close
  /-- A thread that waits for the mutex, or for a condition, has the mutex and goes on. -/
  | lock

/-- A step of a thread, with the address that `malloc` gives it for a node. -/
structure ChannelStep (α : Type) where
  thread : Nat
  node : Nat
  act : ChannelAct α

namespace Channel

def start (capacity : Int) : Channel α := ⟨threadChannel capacity, fun _ => .outside, [], []⟩

def at' (c : Channel α) (t : Nat) (u : ChannelUse α) : Channel α :=
  { c with threads := Function.update c.threads t u }

/-- The state once a thread is done with a receive. -/
def receive (c : Channel α) (t : Nat) : ChannelData α × Option α → Channel α
  | (d, v) => { c.at' t .outside with data := d, received := c.received ++ v.toList }

def step (i : ChannelStep α) (c : Channel α) : Locked (Channel α) :=
  match i.act, c.threads i.thread with
  | .send v, .outside => .done (if c.data.closed then c else c.at' i.thread (.sending v))
  | .recv, .outside => .done (c.at' i.thread .receiving)
  | .tryrecv, .outside => (channelTryrecv c.data).map (c.receive i.thread)
  | .close, .outside => .done { c with data := channelClose c.data }
  | .lock, .sending v =>
    (channelSend c.data i.node v).map fun (d, ok) =>
      { c.at' i.thread .outside with data := d, sent := if ok then c.sent ++ [v] else c.sent }
  | .lock, .receiving => (channelRecv c.data).map (c.receive i.thread)
  | _, _ => .waits

def next (i : ChannelStep α) (c : Channel α) : Option (Channel α) := (c.step i).state?

/-- `malloc` gives an address that is not in use. -/
def Mallocs (i : ChannelStep α) (c : Channel α) : Prop := c.data.nodes i.node = none

end Channel

/-- The nodes from head to tail hold the values, and there are `count` of them. -/
structure ChannelData.Holds (d : ChannelData α) (xs : List (Nat × α)) : Prop where
  queue : Queue d.nodes d.head d.tail xs
  count : d.count = xs.length

namespace ChannelData.Holds

variable {d : ChannelData α} {xs : List (Nat × α)}

theorem threadChannel (capacity : Int) : (threadChannel capacity : ChannelData α).Holds [] :=
  ⟨⟨rfl, rfl, List.nodup_nil⟩, rfl⟩

theorem fresh (h : d.Holds xs) {a : Nat} (ha : d.nodes a = none) : a ∉ xs.map Prod.fst := by
  intro hm
  obtain ⟨x, hx, rfl⟩ := List.mem_map.mp hm
  obtain ⟨next, hn⟩ := h.queue.linked.mem (v := x.2) hx
  rw [ha] at hn
  cases hn

theorem addNode (h : d.Holds xs) {a : Nat} (ha : d.nodes a = none) (v : α) :
    ∃ d', addNode d a v = .done d' ∧ d'.Holds (xs ++ [(a, v)]) ∧ d'.closed = d.closed ∧
      d'.capacity = d.capacity := by
  have hcount : d.count + 1 = ((xs ++ [(a, v)]).length : Int) := by
    rw [h.count, List.length_append, List.length_singleton]
    omega
  have hq := h.queue
  unfold ToiLang.addNode
  cases ht : d.tail with
  | none =>
    rw [ht] at hq
    exact ⟨_, rfl, ⟨hq.push_empty a v, hcount⟩, rfl, rfl⟩
  | some t =>
    rw [ht] at hq
    obtain ⟨front, w, -, hn⟩ := hq.tail_node
    simp only [hn]
    exact ⟨_, rfl, ⟨hq.push hn (h.fresh ha) v, hcount⟩, rfl, rfl⟩

theorem takeNode {x : Nat × α} (h : d.Holds (x :: xs)) :
    ∃ d', takeNode d = .done (d', x.2) ∧ d'.Holds xs ∧ d'.closed = d.closed ∧
      d'.capacity = d.capacity := by
  obtain ⟨hhead, next, hn, -⟩ := h.queue.head_node
  have hcount : d.count - 1 = (xs.length : Int) := by
    rw [h.count, List.length_cons]
    omega
  unfold ToiLang.takeNode
  simp only [hhead, hn]
  exact ⟨_, rfl, ⟨h.queue.pop hn, hcount⟩, rfl, rfl⟩

theorem count_zero (h : d.Holds xs) : d.count = 0 ↔ xs = [] := by
  rw [h.count, Int.natCast_eq_zero, List.length_eq_zero_iff]

end ChannelData.Holds

namespace Channel

variable {c c' : Channel α} {i : ChannelStep α} {xs : List (Nat × α)} {capacity : Int}

/-- What was received and what is in the channel, in this order, is what was sent. -/
structure Inv (capacity : Int) (c : Channel α) (xs : List (Nat × α)) : Prop where
  holds : c.data.Holds xs
  sent : c.sent = c.received ++ xs.map Prod.snd
  constant : c.data.capacity = capacity
  bounded : 0 < capacity → (xs.length : Int) ≤ capacity

/-- What a step does: it keeps the queue, or adds a value that was sent, or takes the first one. -/
inductive Effect (c c' : Channel α) (xs : List (Nat × α)) : Prop
  | keep : c'.data.nodes = c.data.nodes → c'.data.head = c.data.head → c'.data.tail = c.data.tail →
    c'.data.count = c.data.count → c'.sent = c.sent → c'.received = c.received → Effect c c' xs
  | add (x : Nat × α) : c.data.closed = false → c'.data.Holds (xs ++ [x]) →
    (0 < c.data.capacity → c.data.count < c.data.capacity) → c'.sent = c.sent ++ [x.2] →
    c'.received = c.received → Effect c c' xs
  | take (x : Nat × α) (rest : List (Nat × α)) : xs = x :: rest → c'.data.Holds rest →
    c'.sent = c.sent → c'.received = c.received ++ [x.2] → Effect c c' xs

/-- What a channel's functions keep. -/
structure Frame (c c' : Channel α) : Prop where
  capacity : c'.data.capacity = c.data.capacity
  closed : c.data.closed = true → c'.data.closed = true

/-- A step is done or waits, and what it does is one of the three effects. -/
def Spec (c : Channel α) (xs : List (Nat × α)) : Locked (Channel α) → Prop
  | .done c' => Effect c c' xs ∧ Frame c c'
  | .waits => True
  | .undefined => False

theorem takeNode_spec (h : c.data.Holds xs) (hc : c.data.count ≠ 0) (t : Nat) :
    Spec c xs (((takeNode c.data).map fun (d, v) => (d, some v)).map (c.receive t)) := by
  cases xs with
  | nil => exact absurd (h.count_zero.mpr rfl) hc
  | cons x rest =>
    obtain ⟨d', hd, hholds, hclosed, hcap⟩ := h.takeNode
    rw [hd]
    exact ⟨.take x rest rfl hholds rfl rfl, hcap, fun hcl => hclosed.trans hcl⟩

theorem receive_none_spec (t : Nat) : Spec c xs (.done (c.receive t (c.data, none))) :=
  ⟨.keep rfl rfl rfl rfl rfl (List.append_nil _), rfl, id⟩

theorem channelTryrecv_spec (h : c.data.Holds xs) (t : Nat) :
    Spec c xs ((channelTryrecv c.data).map (c.receive t)) := by
  unfold channelTryrecv
  split_ifs with hc
  · exact receive_none_spec t
  · exact takeNode_spec h hc t

theorem channelRecv_spec (h : c.data.Holds xs) (t : Nat) :
    Spec c xs ((channelRecv c.data).map (c.receive t)) := by
  unfold channelRecv
  split_ifs with hwait hclosed
  · trivial
  · exact receive_none_spec t
  · have hc : c.data.count ≠ 0 := by
      intro hc
      cases hcl : c.data.closed with
      | true => exact hclosed ⟨hc, hcl⟩
      | false => exact hwait ⟨hc, hcl⟩
    exact takeNode_spec h hc t

theorem channelSend_spec (h : c.data.Holds xs) {a : Nat} (ha : c.data.nodes a = none) (v : α) (t : Nat) :
    Spec c xs ((channelSend c.data a v).map fun (d, ok) =>
      { c.at' t .outside with data := d, sent := if ok then c.sent ++ [v] else c.sent }) := by
  unfold channelSend
  split_ifs with hwait hclosed
  · trivial
  · exact ⟨.keep rfl rfl rfl rfl rfl rfl, rfl, id⟩
  · obtain ⟨d', hd, hholds, hcl, hcap⟩ := h.addNode ha v
    have hopen : c.data.closed = false := by simpa using hclosed
    rw [hd]
    refine ⟨.add (a, v) hopen hholds (fun hpos => ?_) rfl rfl, hcap, fun hc => hcl.trans hc⟩
    by_contra hfull
    exact hwait ⟨hpos, by omega, hopen⟩

theorem step_spec (h : c.data.Holds xs) (hm : Mallocs i c) : Spec c xs (c.step i) := by
  obtain ⟨t, a, act⟩ := i
  unfold step
  split
  · dsimp only
    split_ifs
    · exact ⟨.keep rfl rfl rfl rfl rfl rfl, rfl, id⟩
    · exact ⟨.keep rfl rfl rfl rfl rfl rfl, rfl, id⟩
  · exact ⟨.keep rfl rfl rfl rfl rfl rfl, rfl, id⟩
  · exact channelTryrecv_spec h _
  · exact ⟨.keep rfl rfl rfl rfl rfl rfl, rfl, fun _ => rfl⟩
  · exact channelSend_spec h hm _ _
  · exact channelRecv_spec h _
  · trivial

theorem next_eq (hn : c.next i = some c') : c.step i = .done c' := by
  unfold next at hn
  cases hs : c.step i with
  | done s =>
    rw [hs] at hn
    exact congrArg _ (Option.some.inj hn)
  | waits =>
    rw [hs] at hn
    cases hn
  | undefined =>
    rw [hs] at hn
    cases hn

theorem Effect.inv (h : Inv capacity c xs) (he : Effect c c' xs) (hf : Frame c c') :
    ∃ ys, Inv capacity c' ys := by
  have hcap := hf.capacity.trans h.constant
  cases he with
  | keep hnodes hhead htail hcount hsent hrec =>
    refine ⟨xs, ⟨?_, ?_⟩, ?_, hcap, h.bounded⟩
    · rw [hnodes, hhead, htail]
      exact h.holds.queue
    · rw [hcount, h.holds.count]
    · rw [hsent, hrec, h.sent]
  | add x hopen hholds hroom hsent hrec =>
    refine ⟨xs ++ [x], hholds, ?_, hcap, fun hpos => ?_⟩
    · rw [hsent, hrec, h.sent]
      simp
    · have hlt := hroom (h.constant ▸ hpos)
      rw [h.holds.count, h.constant] at hlt
      rw [List.length_append, List.length_singleton]
      omega
  | take x rest hxs hholds hsent hrec =>
    subst hxs
    refine ⟨rest, hholds, ?_, hcap, fun hpos => ?_⟩
    · rw [hsent, hrec, h.sent]
      simp
    · have hle := h.bounded hpos
      rw [List.length_cons] at hle
      omega

theorem start_inv (capacity : Int) : Inv capacity (start capacity : Channel α) [] :=
  ⟨.threadChannel capacity, rfl, rfl, fun h => by simpa using Int.le_of_lt h⟩

theorem step_inv (h : ∃ xs, Inv capacity c xs) (hm : Mallocs i c) (hn : c.next i = some c') :
    ∃ xs, Inv capacity c' xs := by
  obtain ⟨xs, h⟩ := h
  have hs := step_spec h.holds hm
  rw [next_eq hn] at hs
  exact hs.1.inv h hs.2

theorem reaches_inv (hrun : Transition.Reachable next Mallocs (start capacity) c) :
    ∃ xs, Inv capacity c xs := by
  have hstart : ∃ xs, Inv capacity (start capacity : Channel α) xs := ⟨[], start_inv capacity⟩
  exact hrun.invariant hstart fun i c c' h hm hn => step_inv h hm hn

/-- A thread outside of the channel's functions receives what is in the channel. -/
theorem drains (h : Inv capacity c xs) {t : Nat} (ht : c.threads t = .outside) :
    ∃ c', Transition.Reachable next (fun i _ => i.thread = t) c c' ∧ c'.received = c.sent := by
  induction xs generalizing c with
  | nil => exact ⟨c, .start, by rw [h.sent]; simp⟩
  | cons x rest ih =>
    obtain ⟨d', hd, hholds, -, hcap⟩ := h.holds.takeNode
    have hcount : c.data.count ≠ 0 := fun hz => by simpa using h.holds.count_zero.mp hz
    have hrecv : channelTryrecv c.data = .done (d', some x.2) := by
      rw [channelTryrecv, if_neg hcount, hd]
      rfl
    have hstep : c.next ⟨t, 0, .tryrecv⟩ = some (c.receive t (d', some x.2)) := by
      simp only [next, step, ht, hrecv, Locked.map, Locked.state?]
    have hinv : Inv capacity (c.receive t (d', some x.2)) rest := by
      refine ⟨hholds, ?_, hcap.trans h.constant, fun hpos => ?_⟩
      · show c.sent = (c.received ++ [x.2]) ++ rest.map Prod.snd
        rw [h.sent]
        simp
      · have hle := h.bounded hpos
        rw [List.length_cons] at hle
        omega
    obtain ⟨c', hr, hall⟩ := ih hinv (Function.update_self ..)
    exact ⟨c', Transition.Reachable.trans (.step .start rfl hstep) hr, hall⟩

/-- For every schedule of the threads of a channel. -/
theorem channel_is_fifo (hrun : Transition.Reachable next Mallocs (start capacity) c) :
    (∃ xs, c.data.Holds xs ∧ c.sent = c.received ++ xs.map Prod.snd ∧
      (0 < capacity → (xs.length : Int) ≤ capacity)) ∧
    (∀ i, Mallocs i c → c.step i ≠ .undefined) ∧
    (c.data.closed = true → ∀ i c', Mallocs i c → c.step i = .done c' →
      c'.data.closed = true ∧ c'.sent = c.sent) ∧
    ∀ t, c.threads t = .outside →
      ∃ c', Transition.Reachable next (fun i _ => i.thread = t) c c' ∧ c'.received = c.sent := by
  obtain ⟨xs, h⟩ := reaches_inv hrun
  refine ⟨⟨xs, h.holds, h.sent, h.bounded⟩, fun i hm hu => ?_, fun hclosed i c' hm hd => ?_,
    fun t ht => drains h ht⟩
  · have hs := step_spec h.holds hm
    rw [hu] at hs
    exact hs
  · have hs := step_spec h.holds hm
    rw [hd] at hs
    refine ⟨hs.2.closed hclosed, ?_⟩
    cases hs.1 with
    | keep _ _ _ _ hsent => exact hsent
    | add x hopen =>
      rw [hclosed] at hopen
      cases hopen
    | take _ _ _ _ hsent => exact hsent

theorem fifo_of_one_send :
    ∃ c : Channel Nat, c.sent = [7] ∧ (∃ xs, c.data.Holds xs ∧ c.sent = c.received ++ xs.map Prod.snd ∧
      (0 < (1 : Int) → (xs.length : Int) ≤ 1)) ∧
    (∀ i, Mallocs i c → c.step i ≠ .undefined) ∧
    (c.data.closed = true → ∀ i c', Mallocs i c → c.step i = .done c' →
      c'.data.closed = true ∧ c'.sent = c.sent) ∧
    ∀ t, c.threads t = .outside →
      ∃ c', Transition.Reachable next (fun i _ => i.thread = t) c c' ∧ c'.received = c.sent := by
  have h1 : (start 1 : Channel Nat).next ⟨0, 5, .send 7⟩ = some ((start 1).at' 0 (.sending 7)) := rfl
  have h2 : ((start 1 : Channel Nat).at' 0 (.sending 7)).next ⟨0, 5, .lock⟩ = some
      { ((start 1).at' 0 (.sending 7)).at' 0 .outside with
        data := ⟨Function.update (fun _ => none) 5 (some ⟨7, none⟩), some 5, some 5, 1, 1, false⟩
        sent := [7] } := rfl
  exact ⟨_, rfl, channel_is_fifo (.step (.step .start rfl h1) rfl h2)⟩

end Channel

end ToiLang
