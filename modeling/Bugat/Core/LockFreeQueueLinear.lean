import Mathlib
import Bugat.Lib.Hindsight
import Bugat.Core.LockFreeQueueRuns

/-!
# LockFreeQueue is linearizable

The history of the calls and the returns of `Push` and `Pop` is one of a sequential queue. A
`Push` takes effect when it links its node and a `Pop` when it moves `_head`. A `Pop` that
returns false takes effect in hindsight, where the queue was last empty.
-/

namespace Bugat.LockFree.Queue

open AtomicObject (Entry Linearizable run)
open Relation (ReflTransGen)
open Transition (exec Along)

variable {α Tid : Type*}

inductive Operation (α : Type*)
  | push (v : α)
  | pop
  deriving DecidableEq

inductive Result (α : Type*)
  | pushed
  | empty
  | popped (value : Option α)
  deriving DecidableEq

def fifo (q : List α) : Operation α → List α × Result α
  | .push v => (q ++ [v], .pushed)
  | .pop =>
    match q with
    | [] => ([], .empty)
    | v :: rest => (rest, .popped (some v))

def Phase.result : Phase α → Result α
  | .idle | .linking _ | .linked _ => .pushed
  | .popping _ => .empty
  | .taken value | .leaving value => .popped (value.map Item.value)

structure Logbook (α Tid : Type*) where
  queue : State α Tid
  count : Tid → ℕ
  history : List (AtomicObject.Event Tid (Operation α) (Result α))

def Logbook.init (a : Addr) : Logbook α Tid := ⟨Queue.init a, fun _ => 0, []⟩

section Steps

variable [DecidableEq Tid]

namespace Logbook

variable (s : Logbook α Tid) (queue : State α Tid) (t : Tid)

def call (op : Operation α) : Logbook α Tid :=
  ⟨queue, s.count, s.history ++ [.call (t, s.count t) op]⟩

def ret (res : Result α) : Logbook α Tid :=
  ⟨queue, Function.update s.count t (s.count t + 1), s.history ++ [.ret (t, s.count t) res]⟩

def after : Logbook α Tid :=
  match (queue.thread t).phase with
  | .idle => s.ret queue t (s.queue.thread t).phase.result
  | _ => ⟨queue, s.count, s.history⟩

end Logbook

def record (s : Logbook α Tid) (l : Tid × Action α) : Option (Logbook α Tid) :=
  (step s.queue l).map fun queue =>
    match l.2 with
    | .push v => s.call queue l.1 (.push v)
    | .pop => s.call queue l.1 .pop
    | .go _ | .fresh _ => s.after queue l.1

end Steps

def Phase.seen : Phase α → AtomicObject.Phase (Operation α) (Result α)
  | .idle => .idle
  | .linking x => .called (.push x.value)
  | .linked x => .applied (.push x.value) .pushed
  | .popping _ => .called .pop
  | .taken value | .leaving value => .applied .pop (.popped (value.map Item.value))

abbrev Spec (α Tid : Type*) := Hindsight.State Tid (List α) (Operation α) (Result α)

/-- The part of the order that ends where the queue was empty at time `e` has in it what each
`Pop` called until then has found in the order. -/
def Emptied (e : ℕ) (thread : Tid → Pc α) (s : Spec α Tid) : Prop :=
  ∃ before after, s.base.order = before ++ after ∧ run fifo [] before = [] ∧
    ∀ t since, (thread t).phase = .popping since → since ≤ e → ∀ a ∈ s.since t, a ∈ before

section Relation

variable [Fintype Tid] [DecidableEq Tid]

structure Relates (c : Logbook α Tid) (s : Spec α Tid) : Prop where
  reached : Reached c.queue
  current : c.queue.shared.emptyAt = c.queue.shared.clock → c.queue.shared.mem.content = []
  history : c.history = s.base.history
  count : c.count = s.base.count
  phase : ∀ t, s.base.phase t = (c.queue.thread t).phase.seen
  content : c.queue.shared.mem.content.map (Option.map Item.value) = s.base.obj.map some
  emptied : Emptied c.queue.shared.emptyAt c.queue.thread s

variable {c c' : Logbook α Tid} {s s' : Spec α Tid} {v : Shared α} {pc : Pc α} {t : Tid}

section Emptiness

omit [Fintype Tid]

theorem emptied_tick {thread : Tid → Pc α} (hinv : Hindsight.Inv fifo [] s')
    (hcontent : v.mem.content.map (Option.map Item.value) = s'.base.obj.map some)
    (h : v.mem.content ≠ [] → Emptied v.emptyAt thread s') : Emptied v.tick.emptyAt thread s' := by
  by_cases hempty : v.mem.content = []
  · refine ⟨s'.base.order, [], (List.append_nil _).symm, ?_, ?_⟩
    · rw [hempty, List.map_nil] at hcontent
      rw [hinv.base.obj]
      exact List.map_eq_nil_iff.mp hcontent.symm
    · intro t since _ _ a ha
      exact hinv.old t a ha
  · rw [Shared.tick, if_neg hempty]
    exact h hempty

theorem current_tick (hle : v.emptyAt ≤ v.clock) (hnow : v.tick.emptyAt = v.tick.clock) :
    v.tick.mem.content = [] := by
  by_contra hne
  have hold : v.tick.emptyAt = v.emptyAt := if_neg hne
  have hclock : v.tick.clock = v.clock + 1 := rfl
  omega

omit [DecidableEq Tid] in
theorem Emptied.of_order {e : ℕ} {thread thread' : Tid → Pc α} (h : Emptied e thread s)
    (horder : ∃ more, s'.base.order = s.base.order ++ more) (hsince : s'.since = s.since)
    (hpop : ∀ t since, (thread' t).phase = .popping since → (thread t).phase = .popping since) :
    Emptied e thread' s' := by
  obtain ⟨before, after, hsplit, hrun, hbefore⟩ := h
  obtain ⟨more, hmore⟩ := horder
  refine ⟨before, after ++ more, ?_, hrun, ?_⟩
  · rw [hmore, hsplit, List.append_assoc]
  · intro t since hphase hle a ha
    rw [hsince] at ha
    exact hbefore t since (hpop t since hphase) hle a ha

end Emptiness

section Moves

omit [Fintype Tid] in
theorem popping_of_update {p : Phase α} (hpc : pc.phase = p) (hp : ∀ since, p ≠ .popping since)
    {thread : Tid → Pc α} {u : Tid} {since : ℕ}
    (hu : (Function.update thread t pc u).phase = .popping since) :
    (thread u).phase = .popping since := by
  by_cases hut : u = t
  · subst hut
    rw [Function.update_self, hpc] at hu
    exact absurd hu (hp since)
  · rwa [Function.update_of_ne hut] at hu

omit [DecidableEq Tid] in
theorem Relates.timely (h : Relates c s) : c.queue.shared.emptyAt ≤ c.queue.shared.clock := by
  obtain ⟨g, ⟨-, htimely⟩, -⟩ := h.reached.holds.asserted
  exact htimely.le

variable (h : Relates c s) (hreached : Reached ⟨v.tick, Function.update c.queue.thread t pc⟩)
include h hreached

theorem Relates.content_same (hpopped : v.popped = c.queue.shared.popped)
    (hlinked : v.linked = c.queue.shared.linked) : v.mem.content = c.queue.shared.mem.content := by
  have hold := h.reached.popped_append_content
  have hnew : v.popped ++ v.mem.content = v.linked.map some := hreached.popped_append_content
  rw [hpopped, hlinked, ← hold] at hnew
  exact List.append_cancel_left hnew

theorem Relates.content_link {x : Item α} (hpopped : v.popped = c.queue.shared.popped)
    (hlinked : v.linked = c.queue.shared.linked ++ [x]) :
    v.mem.content = c.queue.shared.mem.content ++ [some x] := by
  have hold := h.reached.popped_append_content
  have hnew : v.popped ++ v.mem.content = v.linked.map some := hreached.popped_append_content
  rw [hpopped, hlinked, List.map_append, ← hold, List.append_assoc] at hnew
  exact List.append_cancel_left hnew

theorem Relates.content_pop {value : Option (Item α)}
    (hpopped : v.popped = c.queue.shared.popped ++ [value])
    (hlinked : v.linked = c.queue.shared.linked) :
    c.queue.shared.mem.content = value :: v.mem.content := by
  have hold := h.reached.popped_append_content
  have hnew : v.popped ++ v.mem.content = v.linked.map some := hreached.popped_append_content
  rw [hpopped, hlinked, ← hold, List.append_assoc] at hnew
  exact (List.append_cancel_left hnew).symm

theorem Relates.of_step (hinv : Hindsight.Inv fifo [] s')
    (hclock : v.clock = c.queue.shared.clock ∧ v.emptyAt = c.queue.shared.emptyAt)
    (hc : c'.queue = ⟨v.tick, Function.update c.queue.thread t pc⟩)
    (hhistory : c'.history = s'.base.history) (hcount : c'.count = s'.base.count)
    (hself : s'.base.phase t = pc.phase.seen)
    (hothers : ∀ u, u ≠ t → s'.base.phase u = s.base.phase u)
    (hcontent : v.mem.content.map (Option.map Item.value) = s'.base.obj.map some)
    (hemptied : v.mem.content ≠ [] →
      Emptied v.emptyAt (Function.update c.queue.thread t pc) s') : Relates c' s' := by
  have hle : v.emptyAt ≤ v.clock := by
    rw [hclock.1, hclock.2]
    exact h.timely
  refine ⟨?_, ?_, hhistory, hcount, ?_, ?_, ?_⟩
  · rw [hc]
    exact hreached
  · rw [hc]
    exact current_tick hle
  · intro u
    rw [hc]
    dsimp only
    by_cases hut : u = t
    · subst hut
      rw [hself, Function.update_self]
    · rw [hothers u hut, h.phase u, Function.update_of_ne hut]
  · rw [hc]
    exact hcontent
  · rw [hc]
    exact emptied_tick hinv hcontent hemptied

variable (hclock : v.clock = c.queue.shared.clock ∧ v.emptyAt = c.queue.shared.emptyAt)
include hclock

theorem Relates.calls {op : Operation α} (hinv : Hindsight.Inv fifo [] s)
    (hidle : (c.queue.thread t).phase = .idle) (hseen : pc.phase.seen = .called op)
    (hpop : ∀ since, pc.phase = .popping since → since = c.queue.shared.clock)
    (hpopped : v.popped = c.queue.shared.popped) (hlinked : v.linked = c.queue.shared.linked) :
    ∃ s', ReflTransGen (Hindsight.Step fifo []) s s' ∧
      Relates (c.call ⟨v.tick, Function.update c.queue.thread t pc⟩ t op) s' := by
  have hphase : s.base.phase t = .idle := by rw [h.phase, hidle, Phase.seen]
  have hsame := h.content_same hreached hpopped hlinked
  refine ⟨_, .single (.call t op hphase), ?_⟩
  refine h.of_step hreached (hinv.call hphase) hclock rfl ?_ h.count ?_ ?_ ?_ ?_
  · change c.history ++ _ = s.base.history ++ _
    rw [h.history, h.count]
  · change Function.update s.base.phase t _ t = _
    rw [Function.update_self, hseen]
  · intro u hut
    exact Function.update_of_ne hut ..
  · rw [hsame]
    exact h.content
  · intro hne
    obtain ⟨before, after, hsplit, hrun, hbefore⟩ := h.emptied
    refine ⟨before, after, hsplit, hrun, ?_⟩
    intro u since hu hle a ha
    dsimp only at ha
    rw [hclock.2] at hle
    by_cases hut : u = t
    · -- the queue is not empty now, so it was last empty before this call
      subst hut
      rw [Function.update_self] at hu
      have hsince := hpop since hu
      have htimely := h.timely
      rw [hsame] at hne
      exact absurd (h.current (by omega)) hne
    · rw [Function.update_of_ne hut] at hu ha
      exact hbefore u since hu hle a ha

theorem Relates.applies {op : Operation α} (hinv : Hindsight.Inv fifo [] s)
    (hcalled : (c.queue.thread t).phase.seen = .called op)
    (hseen : pc.phase.seen = .applied op (fifo s.base.obj op).2)
    (hpop : ∀ since, pc.phase ≠ .popping since)
    (hcontent : v.mem.content.map (Option.map Item.value) = (fifo s.base.obj op).1.map some) :
    ∃ s', ReflTransGen (Hindsight.Step fifo []) s s' ∧
      Relates ⟨⟨v.tick, Function.update c.queue.thread t pc⟩, c.count, c.history⟩ s' := by
  have hphase : s.base.phase t = .called op := by rw [h.phase, hcalled]
  refine ⟨_, .single (.apply t op hphase), ?_⟩
  refine h.of_step hreached (hinv.apply hphase) hclock rfl h.history h.count ?_ ?_ hcontent ?_
  · change Function.update s.base.phase t _ t = _
    rw [Function.update_self, hseen]
  · intro u hut
    exact Function.update_of_ne hut ..
  · intro _
    rw [hclock.2]
    exact h.emptied.of_order ⟨_, rfl⟩ rfl fun u since hu => popping_of_update rfl hpop hu

theorem Relates.returns {op : Operation α} {res : Result α} (hinv : Hindsight.Inv fifo [] s)
    (happlied : (c.queue.thread t).phase.seen = .applied op res) (hidle : pc.phase = .idle)
    (hpopped : v.popped = c.queue.shared.popped) (hlinked : v.linked = c.queue.shared.linked) :
    ∃ s', ReflTransGen (Hindsight.Step fifo []) s s' ∧
      Relates (c.ret ⟨v.tick, Function.update c.queue.thread t pc⟩ t res) s' := by
  have hphase : s.base.phase t = .applied op res := by rw [h.phase, happlied]
  refine ⟨_, .single (.ret t op res hphase), ?_⟩
  refine h.of_step hreached (hinv.ret hphase) hclock rfl ?_ ?_ ?_ ?_ ?_ ?_
  · change c.history ++ _ = s.base.history ++ _
    rw [h.history, h.count]
  · change Function.update c.count t _ = Function.update s.base.count t _
    rw [h.count]
  · change Function.update s.base.phase t _ t = _
    rw [Function.update_self, hidle, Phase.seen]
  · intro u hut
    exact Function.update_of_ne hut ..
  · rw [h.content_same hreached hpopped hlinked]
    exact h.content
  · intro _
    rw [hclock.2]
    refine h.emptied.of_order ⟨[], (List.append_nil _).symm⟩ rfl fun u since hu => ?_
    exact popping_of_update hidle (by simp) hu

theorem Relates.misses {since : ℕ} (hinv : Hindsight.Inv fifo [] s)
    (hpopping : (c.queue.thread t).phase = .popping since)
    (hle : since ≤ c.queue.shared.emptyAt) (hidle : pc.phase = .idle)
    (hpopped : v.popped = c.queue.shared.popped) (hlinked : v.linked = c.queue.shared.linked) :
    ∃ s', ReflTransGen (Hindsight.Step fifo []) s s' ∧
      Relates (c.ret ⟨v.tick, Function.update c.queue.thread t pc⟩ t .empty) s' := by
  have hphase : s.base.phase t = .called .pop := by rw [h.phase, hpopping, Phase.seen]
  obtain ⟨before, after, hsplit, hrun, hbefore⟩ := h.emptied
  have hread : fifo (run fifo [] before) .pop = (run fifo [] before, .empty) := by
    rw [hrun, fifo]
  have hsince := hbefore t since hpopping hle
  have hinv' := hinv.look hphase hsplit hsince hread
  have hphase' : (Hindsight.look s.base t .pop .empty before after).phase t =
      .applied .pop .empty := Function.update_self ..
  refine ⟨_, .tail (.single (.look t .pop .empty before after hphase hsplit hsince hread))
    (.ret t .pop .empty hphase'), ?_⟩
  refine h.of_step hreached (hinv'.ret hphase') hclock rfl ?_ ?_ ?_ ?_ ?_ ?_
  · change c.history ++ _ = s.base.history ++ _
    rw [h.history, h.count]
    rfl
  · change Function.update c.count t _ = Function.update s.base.count t _
    rw [h.count]
    rfl
  · change Function.update (Function.update s.base.phase t _) t _ t = _
    rw [Function.update_self, hidle, Phase.seen]
  · intro u hut
    change Function.update (Function.update s.base.phase t _) t _ u = _
    rw [Function.update_of_ne hut, Function.update_of_ne hut]
  · rw [h.content_same hreached hpopped hlinked]
    exact h.content
  · intro _
    refine ⟨before ++ [⟨(t, s.base.count t), .pop, .empty⟩], after, ?_, ?_, ?_⟩
    · exact (List.append_assoc before [_] after).symm
    · rw [AtomicObject.run_concat, hread, hrun]
    · intro u since' hu hle' a ha
      rw [hclock.2] at hle'
      have hu' := popping_of_update hidle (by simp) hu
      exact List.mem_append_left _ (hbefore u since' hu' hle' a ha)

theorem Relates.quiet (hinv : Hindsight.Inv fifo [] s)
    (hseen : pc.phase.seen = (c.queue.thread t).phase.seen)
    (hpop : ∀ since, pc.phase = .popping since → (c.queue.thread t).phase = .popping since)
    (hpopped : v.popped = c.queue.shared.popped) (hlinked : v.linked = c.queue.shared.linked) :
    Relates ⟨⟨v.tick, Function.update c.queue.thread t pc⟩, c.count, c.history⟩ s := by
  refine h.of_step hreached hinv hclock rfl h.history h.count ?_ ?_ ?_ ?_
  · rw [h.phase, hseen]
  · intro u _
    rfl
  · rw [h.content_same hreached hpopped hlinked]
    exact h.content
  · intro _
    rw [hclock.2]
    refine h.emptied.of_order ⟨[], (List.append_nil _).symm⟩ rfl fun u since hu => ?_
    by_cases hut : u = t
    · subst hut
      rw [Function.update_self] at hu
      exact hpop since hu
    · rwa [Function.update_of_ne hut] at hu

end Moves

omit [Fintype Tid] [DecidableEq Tid] in
theorem advance_idle {u : Shared α} {pc' : Pc α} {a : Action α}
    (hs : advance u pc a = some (v, pc')) :
    (∃ x, a = .push x ∧ pc = .idle ∧ v = { u with called := u.called ++ [u.call x] } ∧
      pc' = .allocTop (u.call x)) ∨
    (a = .pop ∧ pc = .idle ∧ v = u ∧ pc' = .popTail u.clock) ∨
    (pc.phase ≠ .idle ∧ (∀ x, a ≠ .push x) ∧ a ≠ .pop) := by
  cases a with
  | push x =>
    cases pc with
    | idle =>
      obtain ⟨rfl, rfl⟩ := Prod.mk.inj (Option.some.inj hs)
      exact .inl ⟨x, rfl, rfl, rfl, rfl⟩
    | _ => cases hs
  | pop =>
    cases pc with
    | idle =>
      obtain ⟨rfl, rfl⟩ := Prod.mk.inj (Option.some.inj hs)
      exact .inr (.inl ⟨rfl, rfl, rfl, rfl⟩)
    | _ => cases hs
  | go spurious =>
    refine .inr (.inr ⟨?_, by simp, by simp⟩)
    cases pc with
    | idle => cases hs
    | _ => simp [Pc.phase]
  | fresh b =>
    refine .inr (.inr ⟨?_, by simp, by simp⟩)
    cases pc with
    | idle => cases hs
    | _ => simp [Pc.phase]

omit [Fintype Tid] in
theorem Logbook.after_idle (c : Logbook α Tid) (w : Shared α) (hidle : pc.phase = .idle) :
    c.after ⟨w, Function.update c.queue.thread t pc⟩ t =
      c.ret ⟨w, Function.update c.queue.thread t pc⟩ t (c.queue.thread t).phase.result := by
  have hphase : (Function.update c.queue.thread t pc t).phase = .idle := by
    rw [Function.update_self, hidle]
  rw [Logbook.after]
  dsimp only
  rw [hphase]

omit [Fintype Tid] in
theorem Logbook.after_busy (c : Logbook α Tid) (w : Shared α) (hbusy : pc.phase ≠ .idle) :
    c.after ⟨w, Function.update c.queue.thread t pc⟩ t =
      ⟨⟨w, Function.update c.queue.thread t pc⟩, c.count, c.history⟩ := by
  rw [Logbook.after]
  split
  · rename_i hidle
    dsimp only at hidle
    rw [Function.update_self] at hidle
    exact absurd hidle hbusy
  · rfl

theorem Relates.advances (h : Relates c s) (hinv : Hindsight.Inv fifo [] s)
    (hreached : Reached ⟨v.tick, Function.update c.queue.thread t pc⟩)
    (hlog : Logged c.queue.shared (c.queue.thread t).phase v pc.phase)
    (hbusy : (c.queue.thread t).phase ≠ .idle) :
    ∃ s', ReflTransGen (Hindsight.Step fifo []) s s' ∧
      Relates (c.after ⟨v.tick, Function.update c.queue.thread t pc⟩ t) s' := by
  have hclock := hlog.clock
  have hmisses : ∀ m ∈ v.misses, m.since ≤ m.emptyAt := hreached.queueOk.misses
  generalize hp : (c.queue.thread t).phase = p at hlog hbusy
  generalize hp' : pc.phase = p' at hlog
  cases hlog with
  | quiet _ m hsize tail top =>
    rw [c.after_busy _ (hp' ▸ hbusy)]
    refine ⟨s, .refl, h.quiet hreached hclock hinv (by rw [hp, hp']) ?_ rfl rfl⟩
    rw [hp, hp']
    exact fun _ heq => heq
  | callPush | callPop => exact absurd rfl hbusy
  | link x m hsize =>
    rw [c.after_busy _ (by simp [hp'])]
    have hcalled : (c.queue.thread t).phase.seen = .called (.push x.value) := by
      rw [hp, Phase.seen]
    refine h.applies hreached hclock hinv hcalled (by rw [hp', Phase.seen, fifo]) (by simp [hp']) ?_
    rw [h.content_link hreached rfl rfl, List.map_append, h.content, fifo, List.map_append]
    rfl
  | push x =>
    rw [c.after_idle _ hp', hp]
    exact h.returns hreached hclock hinv (by rw [hp, Phase.seen]; rfl) hp' rfl rfl
  | miss since =>
    rw [c.after_idle _ hp', hp]
    refine h.misses hreached hclock hinv hp ?_ hp' rfl rfl
    exact hmisses ⟨since, c.queue.shared.emptyAt⟩ (by simp)
  | pop since value m hsize =>
    rw [c.after_busy _ (by simp [hp'])]
    have hcontent := h.content
    rw [h.content_pop hreached rfl rfl, List.map_cons] at hcontent
    obtain ⟨w, rest, hobj, hw, hrest⟩ := List.map_eq_cons_iff.mp hcontent.symm
    have hpop : fifo s.base.obj .pop = (rest, .popped (some w)) := by rw [hobj, fifo]
    have hcalled : (c.queue.thread t).phase.seen = .called .pop := by rw [hp, Phase.seen]
    refine h.applies hreached hclock hinv hcalled ?_ (by simp [hp']) ?_
    · rw [hp', Phase.seen, hpop, ← hw]
    · rw [hpop]
      exact hrest.symm
  | subSize value =>
    rw [c.after_busy _ (by simp [hp'])]
    refine ⟨s, .refl, h.quiet hreached hclock hinv (by rw [hp, hp']; rfl) ?_ rfl rfl⟩
    simp [hp']
  | returns value m hsize =>
    rw [c.after_idle _ hp', hp]
    exact h.returns hreached hclock hinv (by rw [hp, Phase.seen]; rfl) hp' rfl rfl

theorem Relates.step {l : Tid × Action α} (h : Relates c s) (hinv : Hindsight.Inv fifo [] s)
    (hsafe : SafeStep c.queue l) (hs : record c l = some c') :
    ∃ s', ReflTransGen (Hindsight.Step fifo []) s s' ∧ Relates c' s' := by
  obtain ⟨t, a⟩ := l
  obtain ⟨queue, hq, rfl⟩ := Option.map_eq_some_iff.mp hs
  have hreached := h.reached.step hsafe hq
  obtain ⟨w, pc, hact, rfl⟩ := Threads.step_eq_some.mp hq
  obtain ⟨⟨v, qc⟩, hadv, heq⟩ := Option.map_eq_some_iff.mp hact
  obtain ⟨rfl, rfl⟩ := Prod.mk.inj heq
  have hlog := advance_logged hadv
  obtain ⟨x, rfl, hidle, rfl, rfl⟩ | ⟨rfl, hidle, rfl, rfl⟩ | ⟨hbusy, hpush, hpop⟩ :=
    advance_idle hadv
  · exact h.calls hreached hlog.clock hinv (by rw [hidle, Pc.phase]) rfl (by simp [Pc.phase])
      rfl rfl
  · exact h.calls hreached hlog.clock hinv (by rw [hidle, Pc.phase]) rfl
      (by simp [Pc.phase]) rfl rfl
  · have hadvances := h.advances hinv hreached hlog hbusy
    cases a with
    | push x => exact absurd rfl (hpush x)
    | pop => exact absurd rfl hpop
    | go spurious => exact hadvances
    | fresh b => exact hadvances

omit [DecidableEq Tid] in
theorem init_relates {b : Addr} (hb : b ≠ 0) :
    Relates (Logbook.init b : Logbook α Tid) (Hindsight.init []) := by
  have hreached : Reached (init b : State α Tid) := init_reached hb
  have hcontent : (init b : State α Tid).shared.mem.content = [] := by
    have hnil := hreached.popped_append_content
    exact (List.append_eq_nil_iff.mp hnil).2
  refine ⟨hreached, fun _ => hcontent, rfl, rfl, fun _ => rfl, ?_, ?_⟩
  · rw [Logbook.init, hcontent]
    rfl
  · refine ⟨[], [], rfl, rfl, ?_⟩
    intro t since hphase
    cases hphase

end Relation

section Runs

/-- In every safe run the calls of `Push` and `Pop` are those of a sequential queue. -/
theorem linearizable_of_safe [Fintype Tid] [DecidableEq Tid] (b : Addr) (hb : b ≠ 0)
    (ls : List (Tid × Action α)) (s : Logbook α Tid)
    (hsafe : Along (fun s l => SafeStep s.queue l) record (Logbook.init b) ls)
    (hrun : exec record (Logbook.init b) ls = some s) : Linearizable fifo [] s.history :=
  Hindsight.linearizable_of_refines (fun _ _ h => h.history)
    (fun _ _ _ _ hinv h hok hs => h.step hinv hok hs) (init_relates hb) hsafe hrun

theorem race_linearizable : ∃ s : Logbook ℕ Caller, exec record (Logbook.init 1) race = some s ∧
    Linearizable fifo [] s.history ∧
    [.ret (.second, 1) (.popped (some 8)), .ret (.second, 2) .empty,
      .ret (.first, 1) (.popped (some 7))].Sublist s.history := by
  have h : (exec record (Logbook.init 1 : Logbook ℕ Caller) race).map (fun s => decide
      ([.ret (.second, 1) (.popped (some 8)), .ret (.second, 2) .empty,
        .ret (.first, 1) (.popped (some 7))].Sublist s.history)) = some true := by
    decide +kernel
  obtain ⟨s, hrun, hs⟩ := Option.map_eq_some_iff.mp h
  exact ⟨s, hrun, linearizable_of_safe 1 (by decide) race s (by decide +kernel) hrun,
    of_decide_eq_true hs⟩

end Runs

end Bugat.LockFree.Queue
