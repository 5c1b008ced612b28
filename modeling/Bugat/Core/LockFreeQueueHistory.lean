import Mathlib
import Bugat.Core.LockFreeQueue
import Bugat.Lib.Counting

/-!
# The history of a LockFreeQueue

For its history a thread is in one of six phases. Each step is one of nine kinds,
whatever the memory looks like, and this alone balances the lists of the history: what
has been called and not linked, linked and not returned, popped and not returned is in
the hands of the threads.
-/

open scoped BigOperators

namespace Bugat.LockFree.Queue

variable {α Tid : Type*}

inductive Phase (α : Type*)
  | idle
  | linking (x : Item α)
  | linked (x : Item α)
  | popping (since : ℕ)
  | taken (value : Option (Item α))
  | leaving (value : Option (Item α))

def Pc.phase : Pc α → Phase α
  | .idle => .idle
  | .allocTop x | .allocNew x | .allocNext x _ | .allocCas x _ _ | .construct x _
  | .loadTail x _ | .loadNext x _ _ | .checkTail x _ _ _ | .link x _ _ | .help x _ _ _ =>
    .linking x
  | .swing x _ _ | .addSize x => .linked x
  | .popTail since | .popHead since _ | .popNext since _ _ | .popCheck since _ _ _
  | .popHelp since _ _ | .popValue since _ _ | .popSwap since _ _ _ => .popping since
  | .subSize value _ => .taken value
  | .destroy value _ | .freeTop value _ | .freeWrite value _ _ | .freeCas value _ _ =>
    .leaving value

inductive Logged (u : Shared α) : Phase α → Shared α → Phase α → Prop
  | quiet (p : Phase α) (m : Memory (Item α)) (hsize : m.size = u.mem.size) (tail top : ℕ) :
    Logged u p { u with mem := m, tailMoves := tail, topMoves := top } p
  | callPush (v : α) :
    Logged u .idle { u with called := u.called ++ [u.call v] } (.linking (u.call v))
  | link (x : Item α) (m : Memory (Item α)) (hsize : m.size = u.mem.size) :
    Logged u (.linking x) { u with mem := m, linked := u.linked ++ [x] } (.linked x)
  | push (x : Item α) :
    Logged u (.linked x) { u with mem := u.mem.addSize 1, pushed := u.pushed ++ [x] } .idle
  | callPop : Logged u .idle u (.popping u.clock)
  | miss (since : ℕ) :
    Logged u (.popping since) { u with misses := u.misses ++ [⟨since, u.emptyAt⟩] } .idle
  | pop (since : ℕ) (value : Option (Item α)) (m : Memory (Item α))
    (hsize : m.size = u.mem.size) :
    Logged u (.popping since) { u with mem := m, popped := u.popped ++ [value] } (.taken value)
  | subSize (value : Option (Item α)) :
    Logged u (.taken value) { u with mem := u.mem.addSize (-1) } (.leaving value)
  | returns (value : Option (Item α)) (m : Memory (Item α)) (hsize : m.size = u.mem.size) :
    Logged u (.leaving value) { u with mem := m, returned := u.returned ++ [value] } .idle

variable {u u' : Shared α} {pc pc' : Pc α} {p p' : Phase α} {a : Action α} {x : Item α}
  {spurious : Bool}

theorem logged_refl : Logged u p u p := .quiet p u.mem rfl u.tailMoves u.topMoves

theorem logged_swingTail (tail : Seen) (ptr : Addr) (spurious : Bool) :
    Logged u p (u.swingTail tail ptr spurious) p := by
  rw [Shared.swingTail]
  split
  · exact .quiet p (u.mem.moveTail ptr) rfl (u.tailMoves + 1) u.topMoves
  · exact logged_refl

theorem allocWith_phase : (u.allocWith x).phase = .linking x := by
  rw [Shared.allocWith]
  split <;> rfl

theorem advancePush_logged (hs : advancePush u spurious pc = some (u', pc')) :
    Logged u pc.phase u' pc'.phase := by
  cases pc with
  | allocTop x =>
    obtain ⟨rfl, rfl⟩ := Prod.mk.inj (Option.some.inj hs)
    rw [allocWith_phase]
    exact logged_refl
  | allocCas x top next =>
    rw [advancePush] at hs
    split at hs <;> obtain ⟨rfl, rfl⟩ := Prod.mk.inj (Option.some.inj hs)
    · exact .quiet _ (u.mem.takeTop next) rfl u.tailMoves (u.topMoves + 1)
    · rw [allocWith_phase]
      exact logged_refl
  | construct x node =>
    obtain ⟨rfl, rfl⟩ := Prod.mk.inj (Option.some.inj hs)
    exact .quiet _ (u.mem.constructNode node x) rfl u.tailMoves u.topMoves
  | allocNext x top | loadTail x node | loadNext x node tail =>
    obtain ⟨rfl, rfl⟩ := Prod.mk.inj (Option.some.inj hs)
    exact logged_refl
  | checkTail x node tail next =>
    obtain ⟨rfl, rfl⟩ := Prod.mk.inj (Option.some.inj hs)
    split
    · split <;> exact logged_refl
    · exact logged_refl
  | link x node tail =>
    rw [advancePush] at hs
    split at hs <;> obtain ⟨rfl, rfl⟩ := Prod.mk.inj (Option.some.inj hs)
    · exact .link x _ rfl
    · exact logged_refl
  | help x node tail next | swing x node tail =>
    obtain ⟨rfl, rfl⟩ := Prod.mk.inj (Option.some.inj hs)
    exact logged_swingTail _ _ _
  | addSize x =>
    obtain ⟨rfl, rfl⟩ := Prod.mk.inj (Option.some.inj hs)
    exact .push x
  | _ => exact absurd hs nofun

theorem advancePop_logged (hs : advancePop u spurious pc = some (u', pc')) :
    Logged u pc.phase u' pc'.phase := by
  cases pc with
  | popTail since | popHead since tail | popNext since tail head | popValue since head next
  | freeTop value node =>
    obtain ⟨rfl, rfl⟩ := Prod.mk.inj (Option.some.inj hs)
    exact logged_refl
  | popCheck since tail head next =>
    rw [advancePop] at hs
    split at hs
    · split at hs
      · split at hs <;> obtain ⟨rfl, rfl⟩ := Prod.mk.inj (Option.some.inj hs)
        · exact .miss since
        · exact logged_refl
      · obtain ⟨rfl, rfl⟩ := Prod.mk.inj (Option.some.inj hs)
        split <;> exact logged_refl
    · obtain ⟨rfl, rfl⟩ := Prod.mk.inj (Option.some.inj hs)
      exact logged_refl
  | popHelp since tail next =>
    obtain ⟨rfl, rfl⟩ := Prod.mk.inj (Option.some.inj hs)
    exact logged_swingTail _ _ _
  | popSwap since head next value =>
    rw [advancePop] at hs
    split at hs <;> obtain ⟨rfl, rfl⟩ := Prod.mk.inj (Option.some.inj hs)
    · exact .pop since value _ rfl
    · exact logged_refl
  | subSize value node =>
    obtain ⟨rfl, rfl⟩ := Prod.mk.inj (Option.some.inj hs)
    exact .subSize value
  | destroy value node =>
    obtain ⟨rfl, rfl⟩ := Prod.mk.inj (Option.some.inj hs)
    exact .quiet _ (u.mem.setValue node none) rfl u.tailMoves u.topMoves
  | freeWrite value node top =>
    obtain ⟨rfl, rfl⟩ := Prod.mk.inj (Option.some.inj hs)
    exact .quiet _ (u.mem.setNext node ⟨top.ptr, 0⟩) rfl u.tailMoves u.topMoves
  | freeCas value node top =>
    rw [advancePop] at hs
    split at hs <;> obtain ⟨rfl, rfl⟩ := Prod.mk.inj (Option.some.inj hs)
    · exact .returns value _ rfl
    · exact logged_refl
  | _ => exact absurd hs nofun

theorem advance_go (pc : Pc α) : advance u pc (.go spurious) =
    (advancePush u spurious pc).orElse fun _ => advancePop u spurious pc := by
  cases pc <;> rfl

theorem advance_go_eq_some (hs : advance u pc (.go spurious) = some (u', pc')) :
    advancePush u spurious pc = some (u', pc') ∨ advancePop u spurious pc = some (u', pc') := by
  rw [advance_go] at hs
  cases hpush : advancePush u spurious pc with
  | some q =>
    rw [hpush] at hs
    exact .inl hs
  | none =>
    rw [hpush] at hs
    exact .inr hs

theorem advance_logged (hs : advance u pc a = some (u', pc')) :
    Logged u pc.phase u' pc'.phase := by
  cases a with
  | go spurious =>
    rcases advance_go_eq_some hs with hs | hs
    · exact advancePush_logged hs
    · exact advancePop_logged hs
  | push v =>
    cases pc with
    | idle =>
      obtain ⟨rfl, rfl⟩ := Prod.mk.inj (Option.some.inj hs)
      exact .callPush v
    | _ => exact absurd hs nofun
  | pop =>
    cases pc with
    | idle =>
      obtain ⟨rfl, rfl⟩ := Prod.mk.inj (Option.some.inj hs)
      exact .callPop
    | _ => exact absurd hs nofun
  | fresh b =>
    cases pc with
    | allocNew x =>
      rw [advance] at hs
      split at hs
      · exact absurd hs nofun
      · obtain ⟨rfl, rfl⟩ := Prod.mk.inj (Option.some.inj hs)
        exact .quiet _ (u.mem.allocate b) rfl u.tailMoves u.topMoves
    | _ => exact absurd hs nofun

theorem Logged.clock (h : Logged u p u' p') : u'.clock = u.clock ∧ u'.emptyAt = u.emptyAt := by
  cases h <;> exact ⟨rfl, rfl⟩

def Phase.unlinked : Phase α → Multiset (Item α)
  | .linking x => {x}
  | _ => 0

def Phase.unreturned : Phase α → Multiset (Item α)
  | .linked x => {x}
  | _ => 0

def Phase.held : Phase α → Multiset (Option (Item α))
  | .taken value | .leaving value => {value}
  | _ => 0

def Phase.uncounted : Phase α → ℤ
  | .leaving _ => 1
  | _ => 0

namespace Logged

variable (h : Logged u p u' p')
include h

theorem called_eq : (u'.called + u.linked + p.unlinked : Multiset (Item α)) =
    u.called + u'.linked + p'.unlinked := by
  cases h <;> simp only [Phase.unlinked, ← Multiset.coe_add, Multiset.coe_singleton,
    add_zero] <;> ac_rfl

theorem linked_eq : (u'.linked + u.pushed + p.unreturned : Multiset (Item α)) =
    u.linked + u'.pushed + p'.unreturned := by
  cases h <;> simp only [Phase.unreturned, ← Multiset.coe_add, Multiset.coe_singleton,
    add_zero] <;> ac_rfl

theorem popped_eq : (u'.popped + u.returned + p.held : Multiset (Option (Item α))) =
    u.popped + u'.returned + p'.held := by
  cases h <;> simp only [Phase.held, ← Multiset.coe_add, Multiset.coe_singleton,
    add_zero] <;> ac_rfl

theorem size_eq : (u'.pushed.length - u'.returned.length : ℤ) + u.mem.size + p.uncounted =
    (u.pushed.length - u.returned.length) + u'.mem.size + p'.uncounted := by
  cases h <;> simp only [Phase.uncounted, Memory.addSize, List.length_append,
    List.length_singleton] <;> omega

end Logged

section Balance

variable [Fintype Tid]

structure Balanced (s : State α Tid) : Prop where
  called : (s.shared.called : Multiset (Item α)) =
    s.shared.linked + ∑ t, (s.thread t).phase.unlinked
  linked : (s.shared.linked : Multiset (Item α)) =
    s.shared.pushed + ∑ t, (s.thread t).phase.unreturned
  popped : (s.shared.popped : Multiset (Option (Item α))) =
    s.shared.returned + ∑ t, (s.thread t).phase.held
  size : (s.shared.pushed.length - s.shared.returned.length : ℤ) =
    s.shared.mem.size + ∑ t, (s.thread t).phase.uncounted

variable {s s' : State α Tid}

theorem init_balanced (b : Addr) : Balanced (init b : State α Tid) := by
  constructor <;> simp [init, Shared.init, Memory.construct, Pc.phase, Phase.unlinked,
    Phase.unreturned, Phase.held, Phase.uncounted]

theorem Balanced.step [DecidableEq Tid] (h : Balanced s) {t : Tid} {v : Shared α} {pc : Pc α}
    (hlog : Logged s.shared (s.thread t).phase v pc.phase) :
    Balanced ⟨v.tick, Function.update s.thread t pc⟩ where
  called := Counting.balance_update (w := fun pc : Pc α => pc.phase.unlinked) h.called
    hlog.called_eq
  linked := Counting.balance_update (w := fun pc : Pc α => pc.phase.unreturned) h.linked
    hlog.linked_eq
  popped := Counting.balance_update (w := fun pc : Pc α => pc.phase.held) h.popped hlog.popped_eq
  size := Counting.balance_update (w := fun pc : Pc α => pc.phase.uncounted) h.size hlog.size_eq

theorem Balanced.linked_called (h : Balanced s) {x : Item α} (hx : x ∈ s.shared.linked) :
    x ∈ s.shared.called := by
  rw [← Multiset.mem_coe, h.called]
  exact Multiset.mem_add.mpr (.inl hx)

theorem Balanced.pushed_linked (h : Balanced s) {x : Item α} (hx : x ∈ s.shared.pushed) :
    x ∈ s.shared.linked := by
  rw [← Multiset.mem_coe, h.linked]
  exact Multiset.mem_add.mpr (.inl hx)

theorem Balanced.not_linked (h : Balanced s) (hnodup : s.shared.called.Nodup) {t : Tid}
    {x : Item α} (hx : (s.thread t).phase = .linking x) :
    x ∈ s.shared.called ∧ x ∉ s.shared.linked := by
  have hle := Counting.le_sum s.thread (fun pc : Pc α => pc.phase.unlinked) t
  have hmem : x ∈ ∑ t, (s.thread t).phase.unlinked := by
    refine Multiset.mem_of_le hle ?_
    rw [hx]
    exact Multiset.mem_singleton_self x
  have hcalled := h.called
  rw [← Multiset.coe_nodup, hcalled, Multiset.nodup_add] at hnodup
  refine ⟨?_, fun hlinked => ?_⟩
  · rw [← Multiset.mem_coe, hcalled]
    exact Multiset.mem_add.mpr (.inr hmem)
  · exact Multiset.disjoint_left.mp hnodup.2.2 hlinked hmem

end Balance

/-- The calls and returns of `Push` in time. `after` tells which calls had returned when a
call was made; a value is never linked before one whose `Push` had returned then. -/
structure Recorded (u : Shared α) : Prop where
  tickets : u.called.map Item.ticket = List.range u.called.length
  after_le : ∀ x ∈ u.called, x.after ≤ u.pushed.length
  self : ∀ x ∈ u.called, x ∉ u.pushed.take x.after
  order : u.linked.Pairwise fun x y => y ∉ u.pushed.take x.after

theorem Recorded.called_nodup (h : Recorded u) : u.called.Nodup :=
  List.Nodup.of_map Item.ticket (h.tickets ▸ List.nodup_range)

theorem Recorded.call_notMem (h : Recorded u) (v : α) : u.call v ∉ u.called := fun hmem => by
  have hticket := List.mem_map_of_mem (f := Item.ticket) hmem
  rw [h.tickets, List.mem_range] at hticket
  exact lt_irrefl _ hticket

theorem Recorded.congr (h : Recorded u) (hcalled : u'.called = u.called)
    (hlinked : u'.linked = u.linked) (hpushed : u'.pushed = u.pushed) : Recorded u' := by
  obtain ⟨htickets, hafter, hself, horder⟩ := h
  refine ⟨?_, ?_, ?_, ?_⟩ <;> simpa only [hcalled, hlinked, hpushed]

theorem Recorded.call (h : Recorded u) (hpushed : ∀ x ∈ u.pushed, x ∈ u.called) (v : α) :
    Recorded { u with called := u.called ++ [u.call v] } where
  tickets := by
    rw [List.map_append, h.tickets, List.length_append, List.length_singleton,
      List.range_succ]
    rfl
  after_le x hx := by
    rcases List.mem_append.mp hx with hx | hx
    · exact h.after_le x hx
    · rw [List.mem_singleton.mp hx]
      exact le_rfl
  self x hx := by
    rcases List.mem_append.mp hx with hx | hx
    · exact h.self x hx
    · rw [List.mem_singleton.mp hx]
      exact fun hmem => h.call_notMem v (hpushed _ (List.mem_of_mem_take hmem))
  order := h.order

theorem Recorded.link (h : Recorded u) (hx : x ∉ u.pushed) (m : Memory (Item α)) :
    Recorded { u with mem := m, linked := u.linked ++ [x] } where
  tickets := h.tickets
  after_le := h.after_le
  self := h.self
  order := by
    refine List.pairwise_append.mpr ⟨h.order, List.pairwise_singleton _ _, fun y _ z hz hmem => ?_⟩
    exact hx (List.mem_singleton.mp hz ▸ List.mem_of_mem_take hmem)

theorem Recorded.push (h : Recorded u) (hlinked : ∀ x ∈ u.linked, x ∈ u.called)
    (m : Memory (Item α)) (x : Item α) :
    Recorded { u with mem := m, pushed := u.pushed ++ [x] } := by
  have htake : ∀ y ∈ u.called, (u.pushed ++ [x]).take y.after = u.pushed.take y.after :=
    fun y hy => List.take_append_of_le_length (h.after_le y hy)
  refine ⟨h.tickets, fun y hy => ?_, fun y hy => ?_, ?_⟩
  · rw [List.length_append]
    exact (h.after_le y hy).trans (Nat.le_add_right _ _)
  · rw [htake y hy]
    exact h.self y hy
  · refine h.order.imp_of_mem fun hy _ hyz => ?_
    rw [htake _ (hlinked _ hy)]
    exact hyz

theorem Recorded.step (h : Recorded u) (hpushed : ∀ x ∈ u.pushed, x ∈ u.linked)
    (hlinked : ∀ x ∈ u.linked, x ∈ u.called) (hnew : ∀ x, p = .linking x → x ∉ u.linked)
    (hlog : Logged u p u' p') : Recorded u' := by
  cases hlog with
  | quiet | callPop | miss | pop | subSize | returns => exact h.congr rfl rfl rfl
  | callPush v => exact h.call (fun x hx => hlinked x (hpushed x hx)) v
  | link x m hsize => exact h.link (fun hx => hnew x rfl (hpushed x hx)) m
  | push x => exact h.push hlinked _ x

end Bugat.LockFree.Queue
