import Mathlib
import Bugat.Base.ContextStop

/-!
# The objects in a Context

An object that has been handed to `Post` is on its way into a SerializerQueue or in one, until
a worker pops it and runs it. A worker that deletes an empty queue drops nothing, so every Post
of an object is one execution of it or one entry of it that is still there.
-/

open scoped BigOperators

namespace Bugat.Context

open Transition (exec Along outputs)
open Counting (sum_update)

variable {n : ℕ} {Tid Pid Obj : Type*}

def PostPc.carried : PostPc n Obj → Option Obj
  | .idle => none
  | .load _ obj | .push _ obj => obj

def PostPc.calls : PostPc n Obj → Bool
  | .idle => false
  | _ => true

section Entries

variable [DecidableEq Obj] [Fintype Pid]

def PostPc.carries (pc : PostPc n Obj) (o : Obj) : ℕ := if pc.carried = some o then 1 else 0

def State.entries (s : State n Tid Pid Obj) (o : Obj) : ℕ :=
  ∑ a ∈ s.live, (s.content a).count (some o) + ∑ p, (s.poster p).carries o

end Entries

def executes (s : State n Tid Pid Obj) : Label Tid Pid Obj → List Obj
  | .popObject t =>
    match s.worker t with
    | .drain (some a) _ => (s.content a).head?.join.toList
    | _ => []
  | _ => []

theorem executes_length_le (s : State n Tid Pid Obj) (l : Label Tid Pid Obj) :
    (executes s l).length ≤ 1 := by
  cases l with
  | popObject t =>
    rw [executes]
    split
    · exact Option.length_toList_le
    · exact Nat.zero_le 1
  | _ => exact Nat.zero_le 1

def Label.posts : Label Tid Pid Obj → Option Obj
  | .post _ obj => obj
  | _ => none

section Steps

variable [DecidableEq Tid] [DecidableEq Pid] [NeZero n] {s s' : State n Tid Pid Obj}
  {l : Label Tid Pid Obj}

inductive Flow (s : State n Tid Pid Obj) (l : Label Tid Pid Obj) (s' : State n Tid Pid Obj) : Prop
  | quiet (hlive : s'.live = s.live) (hcontent : s'.content = s.content)
      (hposter : ∀ p, (s'.poster p).carried = (s.poster p).carried)
      (hcalls : ∀ p, (s'.poster p).calls = (s.poster p).calls)
      (htarget : ∀ a, (∀ i, s.globalQue i ≠ some a) →
        ∀ p, (s'.poster p).target = some a ↔ (s.poster p).target = some a)
      (hposts : l.posts = none) (hexecutes : executes s l = [])
  | enter (a : Addr) (ha : a ∉ s.live) (hlive : s'.live = insert a s.live)
      (hcontent : s'.content = Function.update s.content a []) (hposter : s'.poster = s.poster)
      (hposts : l.posts = none) (hexecutes : executes s l = [])
  | popObject (t : Tid) (a : Addr) (count : ℕ) (x : Option Obj) (rest : List (Option Obj))
      (hl : l = .popObject t) (hworker : s.worker t = .drain (some a) count)
      (ha : s.content a = x :: rest) (hlive : s'.live = s.live)
      (hcontent : s'.content = Function.update s.content a rest) (hposter : s'.poster = s.poster)
      (hrun : ∀ o, x = some o → s'.worker t = .execute (some a) count ∧ s'.executor t = some o)
  | delete (t : Tid) (a : Addr) (hworker : s.worker t = .stopped (some a))
      (hlive : s'.live = s.live.erase a) (hcontent : s'.content = s.content)
      (hposter : s'.poster = s.poster) (hposts : l.posts = none) (hexecutes : executes s l = [])
  | post (p : Pid) (i : Fin n) (obj : Option Obj) (hl : l = .post p obj)
      (hidle : s.poster p = .idle) (hlive : s'.live = s.live) (hcontent : s'.content = s.content)
      (hposter : s'.poster = Function.update s.poster p (.load i obj))
  | push (p : Pid) (a : Addr) (obj : Option Obj) (hl : l = .postPush p)
      (hpush : s.poster p = .push (some a) obj) (hlive : s'.live = s.live)
      (hcontent : s'.content = Function.update s.content a (s.content a ++ [obj]))
      (hposter : s'.poster = Function.update s.poster p .idle)

omit [NeZero n] in
theorem exchange_flow {t : Tid} {localQue expect : Option Addr} {i : Fin n} :
    Flow s (.exchange t) (s.exchange t localQue i expect) := by
  rw [State.exchange]
  split <;> exact .quiet rfl rfl (fun _ => rfl) (fun _ => rfl) (fun _ _ _ => .rfl) rfl rfl

omit [NeZero n] in
theorem pop_flow {t : Tid} {localQue : Option Addr} : Flow s (.pop t) (s.pop t localQue) := by
  rw [State.pop]
  split <;> exact .quiet rfl rfl (fun _ => rfl) (fun _ => rfl) (fun _ _ _ => .rfl) rfl rfl

omit [NeZero n] in
theorem popObject_flow {t : Tid} {a : Addr} {count : ℕ}
    (hworker : s.worker t = .drain (some a) count) :
    Flow s (.popObject t) (s.popObject t a count) := by
  rw [State.popObject]
  split
  · rename_i hempty
    exact .quiet rfl rfl (fun _ => rfl) (fun _ => rfl) (fun _ _ _ => .rfl) rfl
      (by simp [executes, hworker, hempty])
  · rename_i rest ha
    exact .popObject t a count none rest rfl hworker ha rfl rfl rfl (by simp)
  · rename_i obj rest ha
    refine .popObject t a count (some obj) rest rfl hworker ha rfl rfl rfl fun o ho => ?_
    obtain rfl := Option.some.inj ho
    exact ⟨Function.update_self .., Function.update_self ..⟩

theorem step_flow (hs : step s l = some s') : Flow s l s' := by
  cases l with
  | enter t a =>
    simp only [step] at hs
    split at hs
    · split at hs
      · cases hs
      · rename_i ha
        obtain rfl := Option.some.inj hs
        exact .enter a ha rfl rfl rfl rfl rfl
    · cases hs
  | testStop t =>
    simp only [step] at hs
    split at hs
    · split at hs
      · obtain rfl := Option.some.inj hs
        exact .quiet rfl rfl (fun _ => rfl) (fun _ => rfl) (fun _ _ _ => .rfl) rfl rfl
      split at hs <;> obtain rfl := Option.some.inj hs <;>
        exact .quiet rfl rfl (fun _ => rfl) (fun _ => rfl) (fun _ _ _ => .rfl) rfl rfl
    · cases hs
  | swapIndex t | load t | push t | objectRuns t _ | objectThrows t =>
    simp only [step] at hs
    split at hs
    · obtain rfl := Option.some.inj hs
      exact .quiet rfl rfl (fun _ => rfl) (fun _ => rfl) (fun _ _ _ => .rfl) rfl rfl
    · cases hs
  | exchange t =>
    simp only [step] at hs
    split at hs
    · obtain rfl := Option.some.inj hs
      exact exchange_flow
    · cases hs
  | pop t =>
    simp only [step] at hs
    split at hs
    · obtain rfl := Option.some.inj hs
      exact pop_flow
    · cases hs
  | popObject t =>
    simp only [step] at hs
    split at hs
    · rename_i hworker
      obtain rfl := Option.some.inj hs
      exact popObject_flow hworker
    · cases hs
  | delete t =>
    simp only [step] at hs
    split at hs
    · obtain rfl := Option.some.inj hs
      exact .quiet rfl rfl (fun _ => rfl) (fun _ => rfl) (fun _ _ _ => .rfl) rfl rfl
    · rename_i a hworker
      obtain rfl := Option.some.inj hs
      exact .delete t a hworker rfl rfl rfl rfl rfl
    · cases hs
  | post p obj =>
    simp only [step] at hs
    split at hs
    · rename_i hidle
      obtain rfl := Option.some.inj hs
      exact .post p _ obj rfl hidle rfl rfl rfl
    · cases hs
  | postLoad p =>
    simp only [step] at hs
    split at hs
    · rename_i i obj hload
      obtain rfl := Option.some.inj hs
      refine .quiet rfl rfl (fun q => ?_) (fun q => ?_) (fun a ha q => ?_) rfl rfl
      · change (Function.update s.poster p _ q).carried = _
        by_cases hq : q = p
        · subst hq
          rw [Function.update_self, hload]
          rfl
        · rw [Function.update_of_ne hq]
      · change (Function.update s.poster p _ q).calls = _
        by_cases hq : q = p
        · subst hq
          rw [Function.update_self, hload]
          rfl
        · rw [Function.update_of_ne hq]
      · change (Function.update s.poster p _ q).target = _ ↔ _
        by_cases hq : q = p
        · subst hq
          rw [Function.update_self, hload]
          exact ⟨fun h => absurd h (ha i), fun h => absurd h (Option.some_ne_none _).symm⟩
        · rw [Function.update_of_ne hq]
    · cases hs
  | postPush p =>
    simp only [step] at hs
    split at hs
    · rename_i a obj hpush
      obtain rfl := Option.some.inj hs
      exact .push p a obj rfl hpush rfl rfl rfl
    · cases hs
  | stop =>
    obtain rfl := Option.some.inj hs
    exact .quiet rfl rfl (fun _ => rfl) (fun _ => rfl) (fun _ _ _ => .rfl) rfl rfl

theorem executes_popObject {t : Tid} {o : Obj} (hs : step s (.popObject t) = some s')
    (hexecutes : executes s (.popObject t) = [o]) :
    (∃ q count, s'.worker t = .execute q count) ∧ s'.executor t = some o := by
  cases step_flow hs with
  | quiet _ _ _ _ _ _ hnone | enter _ _ _ _ _ _ hnone | delete _ _ _ _ _ _ _ hnone =>
    rw [hnone] at hexecutes
    cases hexecutes
  | popObject u a count x rest hl hworker ha hlive hcontent hposter hrun =>
    cases hl
    rw [executes, hworker] at hexecutes
    simp only [ha, List.head?_cons, Option.join_some] at hexecutes
    obtain ⟨hw, he⟩ := hrun o (Option.toList_eq_singleton_iff.mp hexecutes)
    exact ⟨⟨some a, count, hw⟩, he⟩
  | post _ _ _ hl | push _ _ _ hl => cases hl

theorem step_post {p : Pid} {obj : Option Obj} (hs : step s (.post p obj) = some s') :
    (∀ q, q ≠ p → s'.poster q = s.poster q) ∧ s'.worker = s.worker ∧
      s'.executor = s.executor := by
  simp only [step] at hs
  split at hs
  · obtain rfl := Option.some.inj hs
    exact ⟨fun q hq => Function.update_of_ne hq .., rfl, rfl⟩
  · cases hs

theorem step_worker (hs : step s l = some s') (u : Tid) :
    (s'.worker u = s.worker u ∧ s'.executor u = s.executor u) ∨
      (∀ q count, s.worker u ≠ .execute q count) ∨
      (∃ k, l = .objectRuns u k) ∨ l = .objectThrows u := by
  have hother : ∀ t (pc : WorkerPc n Obj), u ≠ t → Function.update s.worker t pc u = s.worker u :=
    fun t pc hut => Function.update_of_ne hut ..
  cases l with
  | enter t a =>
    simp only [step] at hs
    split at hs
    · rename_i hworker
      split at hs
      · cases hs
      · obtain rfl := Option.some.inj hs
        by_cases hut : u = t
        · exact .inr (.inl (by simp [hut, hworker]))
        · exact .inl ⟨hother t _ hut, rfl⟩
    · cases hs
  | testStop t =>
    simp only [step] at hs
    split at hs
    · rename_i hworker
      by_cases hut : u = t
      · exact .inr (.inl (by simp [hut, hworker]))
      split at hs
      · obtain rfl := Option.some.inj hs
        exact .inl ⟨hother t _ hut, rfl⟩
      split at hs <;> obtain rfl := Option.some.inj hs <;> exact .inl ⟨hother t _ hut, rfl⟩
    · cases hs
  | swapIndex t | load t | push t =>
    simp only [step] at hs
    split at hs
    · rename_i hworker
      obtain rfl := Option.some.inj hs
      by_cases hut : u = t
      · exact .inr (.inl (by simp [hut, hworker]))
      · exact .inl ⟨hother t _ hut, rfl⟩
    · cases hs
  | exchange t =>
    simp only [step] at hs
    split at hs
    · rename_i hworker
      obtain rfl := Option.some.inj hs
      by_cases hut : u = t
      · exact .inr (.inl (by simp [hut, hworker]))
      · rw [State.exchange]
        split <;> exact .inl ⟨hother t _ hut, rfl⟩
    · cases hs
  | pop t =>
    simp only [step] at hs
    split at hs
    · rename_i hworker
      obtain rfl := Option.some.inj hs
      by_cases hut : u = t
      · exact .inr (.inl (by simp [hut, hworker]))
      · rw [State.pop]
        split <;> exact .inl ⟨hother t _ hut, rfl⟩
    · cases hs
  | popObject t =>
    simp only [step] at hs
    split at hs
    · rename_i hworker
      obtain rfl := Option.some.inj hs
      by_cases hut : u = t
      · exact .inr (.inl (by simp [hut, hworker]))
      · have hexec : ∀ x, Function.update s.executor t x u = s.executor u :=
          fun x => Function.update_of_ne hut ..
        rw [State.popObject]
        split
        · exact .inl ⟨hother t _ hut, hexec none⟩
        · exact .inl ⟨rfl, hexec none⟩
        · exact .inl ⟨hother t _ hut, hexec _⟩
    · cases hs
  | objectRuns t k =>
    simp only [step] at hs
    split at hs
    · obtain rfl := Option.some.inj hs
      by_cases hut : u = t
      · exact .inr (.inr (.inl ⟨k, hut ▸ rfl⟩))
      · exact .inl ⟨hother t _ hut, rfl⟩
    · cases hs
  | objectThrows t =>
    simp only [step] at hs
    split at hs
    · obtain rfl := Option.some.inj hs
      by_cases hut : u = t
      · exact .inr (.inr (.inr (hut ▸ rfl)))
      · exact .inl ⟨hother t _ hut, rfl⟩
    · cases hs
  | delete t =>
    simp only [step] at hs
    split at hs
    · rename_i hworker
      obtain rfl := Option.some.inj hs
      by_cases hut : u = t
      · exact .inr (.inl (by simp [hut, hworker]))
      · exact .inl ⟨hother t _ hut, rfl⟩
    · rename_i hworker
      obtain rfl := Option.some.inj hs
      by_cases hut : u = t
      · exact .inr (.inl (by simp [hut, hworker]))
      · exact .inl ⟨hother t _ hut, rfl⟩
    · cases hs
  | post p obj | postLoad p | postPush p =>
    simp only [step] at hs
    split at hs
    · obtain rfl := Option.some.inj hs
      exact .inl ⟨rfl, rfl⟩
    · cases hs
  | stop =>
    obtain rfl := Option.some.inj hs
    exact .inl ⟨rfl, rfl⟩

end Steps

section Balance

theorem Owned.hand_live [Fintype Tid] {s : State n Tid Pid Obj} (h : Owned s) {t : Tid} {a : Addr}
    (ht : (s.worker t).hand = some a) : a ∈ s.live := by
  by_contra hdead
  have hzero := h.places a
  rw [if_neg hdead, State.places] at hzero
  have hone := Counting.le_sum s.worker (fun pc => pointsTo a pc.hand) t
  rw [ht, pointsTo_some, if_pos rfl] at hone
  omega

variable [DecidableEq Obj] {s s' : State n Tid Pid Obj} {l : Label Tid Pid Obj} {o : Obj}

def indicator (o : Obj) (x : Option Obj) : ℕ := if x = some o then 1 else 0

theorem carries_eq (pc : PostPc n Obj) : pc.carries o = indicator o pc.carried := rfl

theorem count_some_cons (x : Option Obj) (xs : List (Option Obj)) :
    (x :: xs).count (some o) = xs.count (some o) + indicator o x := by
  simp [List.count_cons, indicator]

theorem count_some_snoc (x : Option Obj) (xs : List (Option Obj)) :
    (xs ++ [x]).count (some o) = xs.count (some o) + indicator o x := by
  simp [List.count_append, List.count_singleton, indicator]

theorem sum_content_update {a : Addr} {c : List (Option Obj)} (ha : a ∈ s.live) :
    ∑ b ∈ s.live, (Function.update s.content a c b).count (some o) +
        (s.content a).count (some o) =
      ∑ b ∈ s.live, (s.content b).count (some o) + c.count (some o) :=
  Counting.sum_update_mem ha s.content c fun xs => xs.count (some o)

variable [Fintype Pid] [DecidableEq Pid]

theorem sum_carries_update (p : Pid) (pc : PostPc n Obj) :
    ∑ q, (Function.update s.poster p pc q).carries o + (s.poster p).carries o =
      ∑ q, (s.poster q).carries o + pc.carries o :=
  sum_update s.poster p pc fun pc => pc.carries o

variable [DecidableEq Tid] [Fintype Tid] [NeZero n]

omit [DecidableEq Tid] [NeZero n] in
theorem entries_of_flow (h : Flow s l s') (hown : Owned s) (hguard : Guarded s) :
    s.entries o + indicator o l.posts =
      s'.entries o + ((executes s l).map fun x => indicator o (some x)).sum := by
  cases h with
  | quiet hlive hcontent hposter hcalls htarget hposts hexecutes =>
    have hcarries : ∀ p, (s'.poster p).carries o = (s.poster p).carries o := by
      intro p
      rw [carries_eq, carries_eq, hposter]
    simp [State.entries, hlive, hcontent, hcarries, hposts, hexecutes, indicator]
  | enter a ha hlive hcontent hposter hposts hexecutes =>
    have hrest : ∑ b ∈ s.live, (Function.update s.content a [] b).count (some o) =
        ∑ b ∈ s.live, (s.content b).count (some o) := by
      apply Finset.sum_congr rfl
      intro b hb
      rw [Function.update_of_ne (ne_of_mem_of_not_mem hb ha)]
    simp [State.entries, hlive, hcontent, hposter, hposts, hexecutes, indicator,
      Finset.sum_insert ha, hrest]
  | popObject t a count x rest hl hworker ha hlive hcontent hposter hrun =>
    have hsum := sum_content_update (o := o) (c := rest) (hown.hand_live (by rw [hworker]; rfl))
    rw [ha, count_some_cons] at hsum
    have hout : ((executes s l).map fun x => indicator o (some x)).sum = indicator o x := by
      cases x <;> simp [executes, hl, hworker, ha, indicator]
    have hin : indicator o l.posts = 0 := by
      rw [hl]
      rfl
    rw [State.entries, State.entries, hlive, hcontent, hposter, hout, hin]
    omega
  | delete t a hworker hlive hcontent hposter hposts hexecutes =>
    have hlivea := hown.hand_live (a := a) (by rw [hworker]; rfl)
    have hvacant := (hguard.doomed t a (by rw [hworker]; rfl)).1
    have hzero : (s.content a).count (some o) = 0 :=
      List.count_eq_zero.mpr fun hmem => nomatch hvacant _ hmem
    have hsum := Finset.add_sum_erase s.live (fun b => (s.content b).count (some o)) hlivea
    simp only [hzero, zero_add] at hsum
    simp [State.entries, hlive, hcontent, hposter, hposts, hexecutes, indicator, hsum]
  | post p i obj hl hidle hlive hcontent hposter =>
    have hsum := sum_carries_update (s := s) (o := o) p (.load i obj)
    have hnone : (s.poster p).carries o = 0 := by
      rw [hidle]
      rfl
    have hin : indicator o l.posts = PostPc.carries (n := n) (.load i obj) o := by
      rw [hl]
      rfl
    have hout : executes s l = [] := by
      rw [hl]
      rfl
    rw [State.entries, State.entries, hlive, hcontent, hposter, hin, hout, List.map_nil,
      List.sum_nil]
    omega
  | push p a obj hl hpush hlive hcontent hposter =>
    obtain ⟨b, hb, hab⟩ := hguard.pushes p (some a) obj hpush
    obtain rfl := Option.some.inj hab
    have hqueue := sum_content_update (o := o) (c := s.content a ++ [obj]) hb
    have hcall := sum_carries_update (s := s) (o := o) p .idle
    rw [count_some_snoc] at hqueue
    have hbefore : (s.poster p).carries o = indicator o obj := by
      rw [hpush]
      rfl
    have hafter : PostPc.carries (n := n) (.idle) o = 0 := rfl
    have hin : indicator o l.posts = 0 := by
      rw [hl]
      rfl
    have hout : executes s l = [] := by
      rw [hl]
      rfl
    rw [State.entries, State.entries, hlive, hcontent, hposter, hin, hout, List.map_nil,
      List.sum_nil]
    omega

structure Kept (s : State n Tid Pid Obj) : Prop where
  owned : Owned s
  guarded : Guarded s

omit [DecidableEq Obj] [Fintype Pid] in
theorem Kept.step (h : Kept s) (hquiet : StopsQuietly s l) (hs : step s l = some s') : Kept s' :=
  ⟨h.owned.of_move (step_move hs), h.guarded.step h.owned hquiet hs⟩

omit [DecidableEq Tid] [DecidableEq Pid] [NeZero n] [DecidableEq Obj] [Fintype Pid] in
theorem initializeContext_kept : Kept (initializeContext n : State n Tid Pid Obj) :=
  ⟨initializeContext_owned, initializeContext_guarded⟩

omit [DecidableEq Obj] [Fintype Pid] [DecidableEq Tid] [DecidableEq Pid] [NeZero n]
  [Fintype Tid] in
theorem initializeContext_vacant :
    (∀ a, (initializeContext n : State n Tid Pid Obj).content a = []) ∧
      (∀ p, (initializeContext n : State n Tid Pid Obj).poster p = .idle) ∧
        ∀ t, (initializeContext n : State n Tid Pid Obj).worker t = .outside := by
  have hloop : ∀ (todo : List (Fin n)) (s : State n Tid Pid Obj), (∀ a, s.content a = []) →
      (∀ a, (todo.foldl State.initSlot s).content a = []) ∧
        (todo.foldl State.initSlot s).poster = s.poster ∧
          (todo.foldl State.initSlot s).worker = s.worker := by
    intro todo
    induction todo with
    | nil => exact fun s hs => ⟨hs, rfl, rfl⟩
    | cons i todo ih =>
      intro s hs
      refine ih (s.initSlot i) fun a => ?_
      simp only [State.initSlot, State.newQue, Function.update_apply]
      split
      · rfl
      split
      · rfl
      · exact hs a
  obtain ⟨hcontent, hposter, hworker⟩ := hloop (List.finRange n) construct fun _ => rfl
  exact ⟨hcontent, fun p => congrFun hposter p, fun t => congrFun hworker t⟩

omit [DecidableEq Tid] [DecidableEq Pid] [NeZero n] [Fintype Tid] in
theorem initializeContext_entries : (initializeContext n : State n Tid Pid Obj).entries o = 0 := by
  obtain ⟨hcontent, hposter, -⟩ := @initializeContext_vacant n Tid Pid Obj
  simp [State.entries, hcontent, hposter, PostPc.carries, PostPc.carried]

omit [DecidableEq Tid] [DecidableEq Pid] [NeZero n] [Fintype Tid] [Fintype Pid] in
theorem sum_indicator (xs : List Obj) :
    (xs.map fun x => indicator o (some x)).sum = xs.count o := by
  induction xs with
  | nil => rfl
  | cons x xs ih =>
    rw [List.map_cons, List.sum_cons, ih, List.count_cons]
    simp [indicator, add_comm]

omit [DecidableEq Tid] [DecidableEq Pid] [NeZero n] [Fintype Tid] [Fintype Pid] in
theorem sum_posts (ls : List (Label Tid Pid Obj)) :
    (ls.map fun l => indicator o l.posts).sum = ls.countP fun l => l.posts = some o := by
  induction ls with
  | nil => rfl
  | cons l ls ih =>
    rw [List.map_cons, List.sum_cons, ih, List.countP_cons]
    simp [indicator, add_comm]

/-- In every run in which the workers stop quietly, each Post of an object is one execution of
it or one entry of it that is still there. -/
theorem posts_balance (ls : List (Label Tid Pid Obj)) (s : State n Tid Pid Obj) (o : Obj)
    (hquiet : Along StopsQuietly step (initializeContext n) ls)
    (hrun : exec step (initializeContext n) ls = some s) :
    (ls.countP fun l => l.posts = some o) =
      s.entries o + (outputs executes step (initializeContext n) ls).count o := by
  have hbalance := Transition.exec_balance (fun l : Label Tid Pid Obj => indicator o l.posts)
    (fun x => indicator o (some x)) executes (fun s => s.entries o)
    (fun _ _ _ hkept hquiet hs => Kept.step hkept hquiet hs)
    (fun _ _ _ hkept _ hs => entries_of_flow (step_flow hs) hkept.owned hkept.guarded)
    initializeContext_kept hquiet hrun
  rwa [initializeContext_entries, zero_add, sum_posts, sum_indicator] at hbalance

end Balance

section Runs

def postedTwice : List (Label Unit Bool ℕ) :=
  [.enter () 4, .post false (some 7), .postLoad false, .post true (some 7), .postPush false,
    .testStop (), .swapIndex (), .load (), .exchange (), .push (), .pop (), .popObject (),
    .testStop (), .swapIndex (), .load (), .exchange (), .push (), .pop (), .popObject (),
    .postLoad true, .objectRuns () 1, .postPush true]

theorem postedTwice_balance : ∃ s : State 1 Unit Bool ℕ,
    exec step (initializeContext 1) postedTwice = some s ∧
      2 = s.entries 7 + (outputs executes step (initializeContext 1 : State 1 Unit Bool ℕ)
        postedTwice).count 7 ∧ s.entries 7 = 1 := by
  have h : (exec step (initializeContext 1 : State 1 Unit Bool ℕ) postedTwice).map
      (fun s => s.entries 7) = some 1 := by
    decide +kernel
  obtain ⟨s, hrun, hs⟩ := Option.map_eq_some_iff.mp h
  exact ⟨s, hrun, posts_balance postedTwice s 7 (by decide +kernel) hrun, hs⟩

end Runs

end Bugat.Context
