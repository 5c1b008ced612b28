import Mathlib
import Bugat.Base.AwaitTaskFrames

/-!
# The steps of the coroutines

What a step of one coroutine does to the coroutines of its spawned one: a call puts a callee in
front of them, a return takes the innermost away. The coroutines of the others stay as they are.
-/

namespace Bugat.AwaitCall

open Executor (taskMove_of_step inTask_step)
open Routine (Caller Reaches)

variable {n : ℕ} {Tid Obj Task Act Ans Val : Type*} [DecidableEq Tid] [Fintype Tid]
  [DecidableEq Obj] {s s' u : State n Tid Obj Task Act Ans Val} {g g' : Ghost Tid Obj}
  {a b h : Addr} {f : Frame Obj Act Ans Val} {t : Tid} {o p : Obj} {i : ℕ}
  {code : Routine Obj Act Ans Val}

structure Inv (s : State n Tid Obj Task Act Ans Val) (g : Ghost Tid Obj) : Prop where
  base : Executor.Inv s.base
  sound : s.faulted = false
  tokens : Tokens s.base s.running g.place
  frames : ∀ a, FrameOk s g a
  roots : ∀ i p c, s.spawned[i]? = some (p, c) → RootOk s g i p c
  fresh : ∀ i, s.spawned.length ≤ i → g.chain i = [] ∧ s.trace i = [] ∧ s.values i = []

theorem Inv.touch (hinv : Inv s g) (touched : List Addr) (hbase : Executor.Inv s'.base)
    (hsound : s'.faulted = false) (htokens : Tokens s'.base s'.running g'.place)
    (hin : ∀ t a p, s.running t = some a → s.base.inTask t p = true → s'.base.inTask t p = true)
    (hlength : s.spawned.length ≤ s'.spawned.length) (hi : i < s'.spawned.length)
    (hspawned : ∀ j ≠ i, s'.spawned[j]? = s.spawned[j]?)
    (hframe : ∀ b ∉ touched, s'.frame b = s.frame b ∧ g'.place b = g.place b)
    (hown : ∀ b ∈ touched, ∀ f, s.frame b = some f → f.isFinal = false → f.number = i)
    (hchain : ∀ j ≠ i, g'.chain j = g.chain j)
    (hkeep : ∀ b ∉ touched, b ∈ g.chain i → b ∈ g'.chain i)
    (htouched : ∀ b ∈ touched, FrameOk s' g' b)
    (htrace : ∀ j ≠ i, s'.trace j = s.trace j ∧ s'.values j = s.values j)
    (hroot : ∀ p c, s'.spawned[i]? = some (p, c) → RootOk s' g' i p c) : Inv s' g' where
  base := hbase
  sound := hsound
  tokens := htokens
  frames b := by
    by_cases hb : b ∈ touched
    · exact htouched b hb
    · obtain ⟨hsame, hplace⟩ := hframe b hb
      refine (hinv.frames b).keep hsame hplace hlength ?_
      intro j hj
      by_cases hji : j = i
      · subst hji
        exact hkeep b hb hj
      · rwa [hchain j hji]
  roots j p c hj := by
    by_cases hji : j = i
    · subst hji
      exact hroot p c hj
    · rw [hspawned j hji] at hj
      have hr := hinv.roots j p c hj
      refine hr.keep hinv.tokens hin (hchain j hji) ?_ (htrace j hji).1 (htrace j hji).2
      intro b hb
      obtain ⟨f, hf, hnumber, hfinal⟩ := hr.mem hb
      refine hframe b fun hmem => hji ?_
      exact hnumber.symm.trans (hown b hmem f hf hfinal)
  fresh j hj := by
    have hji : j ≠ i := by omega
    rw [hchain j hji, (htrace j hji).1, (htrace j hji).2]
    exact hinv.fresh j (by omega)

omit [DecidableEq Tid] [Fintype Tid] [DecidableEq Obj] in
theorem own_singleton (hframe : s.frame h = some f) :
    ∀ b ∈ [h], ∀ f', s.frame b = some f' → f'.isFinal = false → f'.number = f.number := by
  intro b hb f' hf' _
  rw [List.mem_singleton.mp hb, hframe] at hf'
  rw [Option.some.inj hf']

structure Innermost (s : State n Tid Obj Task Act Ans Val) (g : Ghost Tid Obj) (a : Addr)
    (f : Frame Obj Act Ans Val) (code : Routine Obj Act Ans Val) (p₀ : Obj)
    (c₀ : Routine Obj Act Ans Val) (as : List Addr) (st : List (Caller Obj Act Ans Val)) (p : Obj) :
    Prop where
  spawned : s.spawned[f.number]? = some (p₀, c₀)
  chain : g.chain f.number = a :: as
  callers : Callers s.frame f.number f.callfunc as st
  notMem : a ∉ as
  stands : Stands s.base g.place a p
  reaches : Reaches p₀ c₀ (s.trace f.number) ⟨p, code, st⟩
  values : s.values f.number = []

theorem Inv.innermost (hinv : Inv s g) (hframe : s.frame a = some f)
    (hnext : f.next = some code) : ∃ p₀ c₀ as st p, Innermost s g a f code p₀ c₀ as st p := by
  obtain ⟨hfinal, -⟩ := Frame.isFinal_of_next hnext
  have hok := hinv.frames a
  rw [FrameOk, hframe] at hok
  rcases hok with ⟨hf, -⟩ | ⟨-, hnumber, hmem, -⟩
  · rw [hfinal] at hf
    cases hf
  obtain ⟨⟨p₀, c₀⟩, hspawned⟩ : ∃ x, s.spawned[f.number]? = some x :=
    ⟨_, List.getElem?_eq_getElem hnumber⟩
  cases hinv.roots _ p₀ c₀ hspawned with
  | returned v hchain hvalues heval =>
    rw [hchain] at hmem
    cases hmem
  | ongoing b as f' code' st p hchain hb hnumber' hnext' hcallers hstands hreaches hvalues =>
    have hnotMem : a ∉ as := by
      intro hmem
      obtain ⟨f'', hf'', -, -, hnone⟩ := hcallers.mem hmem
      obtain rfl := Option.some.inj (hf''.symm.trans hframe)
      rw [hnext] at hnone
      cases hnone
    rw [hchain] at hmem
    obtain rfl := (List.mem_cons.mp hmem).resolve_right hnotMem
    obtain rfl := Option.some.inj (hb.symm.trans hframe)
    obtain rfl := Option.some.inj (hnext'.symm.trans hnext)
    exact ⟨p₀, c₀, as, st, p, hspawned, hchain, hcallers, hnotMem, hstands, hreaches, hvalues⟩

omit [DecidableEq Tid] [Fintype Tid] [DecidableEq Obj] in
theorem Innermost.lt {p₀ : Obj} {c₀ : Routine Obj Act Ans Val} {as : List Addr}
    {st : List (Caller Obj Act Ans Val)} (hin : Innermost s g a f code p₀ c₀ as st p) :
    f.number < s.spawned.length := (List.getElem?_eq_some_iff.mp hin.spawned).1

omit [DecidableEq Tid] [Fintype Tid] [DecidableEq Obj] in
theorem Innermost.mem {p₀ : Obj} {c₀ : Routine Obj Act Ans Val} {as : List Addr}
    {st : List (Caller Obj Act Ans Val)} (hin : Innermost s g a f code p₀ c₀ as st p) :
    a ∈ g.chain f.number := by
  rw [hin.chain]
  exact List.mem_cons_self

theorem Inv.advance {p₀ : Obj} {c₀ : Routine Obj Act Ans Val} {as : List Addr}
    {st : List (Caller Obj Act Ans Val)} (hinv : Inv s g)
    (hin : Innermost s g a f code p₀ c₀ as st p) (touched : List Addr)
    (hbase : Executor.Inv s'.base) (hsound : s'.faulted = false)
    (htokens : Tokens s'.base s'.running g'.place)
    (hinTask : ∀ t a p, s.running t = some a → s.base.inTask t p = true →
      s'.base.inTask t p = true)
    (hspawned : s'.spawned = s.spawned)
    (hframe : ∀ b ∉ touched, s'.frame b = s.frame b ∧ g'.place b = g.place b)
    (hown : ∀ b ∈ touched, ∀ x, s.frame b = some x → x.isFinal = false → x.number = f.number)
    (hchain : ∀ j ≠ f.number, g'.chain j = g.chain j)
    (hkeep : ∀ b ∉ touched, b ∈ g.chain f.number → b ∈ g'.chain f.number)
    (htouched : ∀ b ∈ touched, FrameOk s' g' b)
    (hrecords : ∀ j ≠ f.number, s'.trace j = s.trace j ∧ s'.values j = s.values j)
    (hroot : RootOk s' g' f.number p₀ c₀) : Inv s' g' := by
  refine hinv.touch (i := f.number) touched hbase hsound htokens hinTask ?_ ?_ ?_ hframe hown
    hchain hkeep htouched hrecords ?_
  · rw [hspawned]
  · rw [hspawned]
    exact hin.lt
  · intro j _
    rw [hspawned]
  · intro p c hpc
    rw [hspawned] at hpc
    obtain ⟨rfl, rfl⟩ := Prod.mk.inj (Option.some.inj (hin.spawned.symm.trans hpc))
    exact hroot

theorem Inv.executor (hinv : Inv s g) (hin : s.base.inTask t p = true) :
    s.base.context.executor t = some p := by
  have hbusy : ((s.base.object p).thread t).run ≠ .idle := by
    intro hidle
    rw [Executor.State.inTask, hidle] at hin
    cases hin
  exact (hinv.base.control.running t p hbusy).2

theorem Inv.stands (hinv : Inv s g) (hrunning : s.running t = some a)
    (hstands : Stands s.base g.place a p) :
    s.base.inTask t p = true ∧ s.base.context.executor t = some p := by
  have hplace := (hinv.tokens.running t a).mp hrunning
  rcases hstands with hqueued | ⟨t', ht', hin⟩
  · rw [hplace] at hqueued
    cases hqueued
  · rw [hplace] at ht'
    obtain rfl := Place.running.inj ht'
    exact ⟨hin, hinv.executor hin⟩

variable [NeZero n]

structure Linked (base base' : Executor.State n Tid Obj (Job Task)) (o : Obj) (a : Addr) :
    Prop where
  inv : Executor.Inv base → Executor.Inv base'
  inTask : ∀ t p, base.inTask t p = true → base'.inTask t p = true
  self : handles base' o = handles base o ++ [a]
  other : ∀ p ≠ o, handles base' p = handles base p

theorem linked_of_step {base base' : Executor.State n Tid Obj (Job Task)}
    (hs : Executor.step base (.mailbox o (.link t (.resume a))) = some base') :
    Linked base base' o a := by
  have hquiet : Executor.StopsQuietly base
      (.mailbox o (.link t (.resume a)) : Executor.Label Tid Obj (Job Task)) := trivial
  have hfit : Executor.SizesFit base
      (.mailbox o (.link t (.resume a)) : Executor.Label Tid Obj (Job Task)) := by
    intro u he
    cases he
  cases taskMove_of_step rfl hs with
  | stays hlink => exact absurd rfl (hlink o t _)
  | takes o' t' task hl => cases hl
  | links o' t' task hl hself hother =>
    cases hl
    refine ⟨fun hinv => hinv.step rfl hquiet hfit hs,
      fun v q hin => inTask_step rfl hs (by simp) hin, ?_, ?_⟩
    · rw [handles, hself, List.filterMap_append]
      rfl
    · intro q hq
      rw [handles, hother q hq, handles]

structure Posts (s u : State n Tid Obj Task Act Ans Val) (o : Obj) (a : Addr) : Prop where
  linked : Linked s.base u.base o a
  frame : u.frame = s.frame
  running : u.running = s.running
  faulted : u.faulted = s.faulted
  spawned : u.spawned = s.spawned
  events : u.events = s.events
  returned : u.returned = s.returned

theorem posts_of_post (hs : s.post t o a = some u) : Posts s u o a := by
  obtain ⟨base, hbase, rfl⟩ := Option.map_eq_some_iff.mp hs
  exact ⟨linked_of_step hbase, rfl, rfl, rfl, rfl, rfl, rfl⟩

omit [Fintype Tid] [DecidableEq Tid] [DecidableEq Obj] [NeZero n] in
theorem current_eq_some : s.current t = some (h, f) ↔
    s.running t = some h ∧ s.frame h = some f := by
  simp only [State.current, Option.bind_eq_some_iff, Option.map_eq_some_iff, Prod.mk.injEq]
  constructor
  · rintro ⟨a, ha, f', hf', rfl, rfl⟩
    exact ⟨ha, hf'⟩
  · rintro ⟨ha, hf⟩
    exact ⟨h, ha, f, hf, rfl, rfl⟩

omit [NeZero n] in
theorem Inv.nowhere (hinv : Inv s g) (hframe : s.frame a = none) : g.place a = .nowhere := by
  have hok := hinv.frames a
  rwa [FrameOk, hframe] at hok

omit [Fintype Tid] [DecidableEq Tid] [DecidableEq Obj] [NeZero n] in
theorem records_congr (hevents : s'.events = s.events) (hreturned : s'.returned = s.returned)
    (i : ℕ) : s'.trace i = s.trace i ∧ s'.values i = s.values i := by
  rw [State.trace, State.values, hevents, hreturned]
  exact ⟨rfl, rfl⟩

theorem Inv.spawn {executor : Option Obj} (hinv : Inv s g)
    (hs : s.spawn t o a executor code = some s') : ∃ g', Inv s' g' := by
  rw [State.spawn] at hs
  split at hs
  · rename_i hfree
    have hposts := posts_of_post hs
    have hframe : s'.frame = Function.update s.frame a
        (some ⟨.ready code, executor, none, s.spawned.length⟩) := hposts.frame
    have hspawned : s'.spawned = s.spawned ++ [(o, code)] := hposts.spawned
    have hrecords : ∀ j, s'.trace j = s.trace j ∧ s'.values j = s.values j :=
      records_congr hposts.events hposts.returned
    have htokens : Tokens s'.base s'.running (Function.update g.place a (.queued o)) := by
      rw [hposts.running]
      exact hinv.tokens.post (hinv.nowhere hfree) hposts.linked.inTask hposts.linked.self
        hposts.linked.other
    obtain ⟨hchain, htrace, hvalues⟩ := hinv.fresh s.spawned.length le_rfl
    refine ⟨⟨Function.update g.place a (.queued o), Function.update g.chain s.spawned.length [a]⟩,
      hinv.touch (i := s.spawned.length) [a] (hposts.linked.inv hinv.base)
        (hposts.faulted.trans hinv.sound) htokens (fun t a p _ => hposts.linked.inTask t p)
        ?_ ?_ ?_ ?_ ?_ ?_ ?_ ?_ (fun j _ => hrecords j) ?_⟩
    · rw [hspawned, List.length_append]
      exact Nat.le_add_right _ _
    · rw [hspawned, List.length_append, List.length_singleton]
      exact Nat.lt_succ_self _
    · intro j hj
      rw [hspawned, List.getElem?_append]
      split
      · rfl
      · have hlt : s.spawned.length < j := by omega
        rw [List.getElem?_eq_none hlt.le, List.getElem?_eq_none]
        rw [List.length_singleton]
        omega
    · intro b hb
      rw [List.mem_singleton] at hb
      rw [hframe]
      exact ⟨Function.update_of_ne hb .., Function.update_of_ne hb ..⟩
    · intro b hb f hf
      rw [List.mem_singleton.mp hb, hfree] at hf
      cases hf
    · intro j hj
      exact Function.update_of_ne hj ..
    · intro b hb hmem
      rw [hchain] at hmem
      cases hmem
    · intro b hb
      obtain rfl := List.mem_singleton.mp hb
      rw [FrameOk, hframe, hspawned]
      simp [Frame.isFinal, Frame.waits]
    · intro p c hpc
      rw [hspawned, List.getElem?_concat_length] at hpc
      cases hpc
      have hself : s'.frame a = some ⟨.ready code, executor, none, s.spawned.length⟩ := by
        rw [hframe, Function.update_self]
      refine .ongoing a [] _ code [] o (Function.update_self ..) hself rfl rfl .root ?_ ?_ ?_
      · exact .inl (Function.update_self ..)
      · rw [(hrecords _).1, htrace]
        exact .start
      · rw [(hrecords _).2, hvalues]
  · cases hs

omit [NeZero n] in
theorem Inv.act {act : Act} {k : Ans → Routine Obj Act Ans Val} {r : Ans} (hinv : Inv s g)
    (hrunning : s.running t = some h) (hframe : s.frame h = some f)
    (hpc : f.pc = .ready (.act act k)) (hp : s.base.context.executor t = some p) :
    Inv { s.setFrame h { f with pc := .ready (k r) } with
      events := s.events ++ [(f.number, ⟨p, act, r⟩)] } g := by
  obtain ⟨p₀, c₀, as, st, q, hin⟩ := hinv.innermost hframe
    (show f.next = some (.act act k) by rw [Frame.next, hpc])
  obtain ⟨-, hq⟩ := hinv.stands hrunning hin.stands
  obtain rfl := Option.some.inj (hp.symm.trans hq)
  refine hinv.advance hin [h] hinv.base hinv.sound hinv.tokens (fun _ _ _ _ => id) rfl ?_
    (own_singleton hframe) (fun _ _ => rfl) (fun _ _ => id) ?_ ?_ ?_
  · intro b hb
    rw [List.mem_singleton] at hb
    exact ⟨Function.update_of_ne hb .., rfl⟩
  · intro b hb
    obtain rfl := List.mem_singleton.mp hb
    rw [FrameOk]
    simp only [State.setFrame, Function.update_self]
    refine .inr ⟨rfl, hin.lt, hin.mem, ?_⟩
    rw [(hinv.tokens.running t b).mp hrunning]
    simp [Frame.waits]
  · intro j hj
    exact ⟨recorded_other _ _ hj, rfl⟩
  · refine .ongoing h as _ (k r) st _ hin.chain (Function.update_self ..) rfl rfl
      (hin.callers.update hin.notMem _) hin.stands ?_ hin.values
    change Reaches _ _ (recorded (s.events ++ [_]) f.number) _
    rw [recorded_self]
    exact hin.reaches.act r

theorem Inv.always {next : Routine Obj Act Ans Val} (hinv : Inv s g)
    (hrunning : s.running t = some h) (hframe : s.frame h = some f)
    (hpc : f.pc = .ready (.move o next)) (hs : s.always t h f o next = some s') :
    ∃ g', Inv s' g' := by
  obtain ⟨p₀, c₀, as, st, q, hin⟩ := hinv.innermost hframe
    (show f.next = some (.move o next) by rw [Frame.next, hpc])
  have hposts := posts_of_post hs
  have hframe' : s'.frame = Function.update s.frame h (some { f with pc := .ready next }) :=
    hposts.frame
  have hspawned : s'.spawned = s.spawned := hposts.spawned
  have hrecords : ∀ j, s'.trace j = s.trace j ∧ s'.values j = s.values j :=
    records_congr hposts.events hposts.returned
  have htokens : Tokens s'.base s'.running (Function.update g.place h (.queued o)) := by
    have hleft := hinv.tokens.leave hrunning
    have hposted := hleft.post (Function.update_self ..) hposts.linked.inTask hposts.linked.self
      hposts.linked.other
    rw [Function.update_idem] at hposted
    rw [hposts.running]
    exact hposted
  refine ⟨⟨Function.update g.place h (.queued o), g.chain⟩,
    hinv.advance hin [h] (hposts.linked.inv hinv.base) (hposts.faulted.trans hinv.sound) htokens
      (fun t a p _ => hposts.linked.inTask t p) hspawned ?_ (own_singleton hframe)
      (fun _ _ => rfl) (fun _ _ => id) ?_ (fun j _ => hrecords j) ?_⟩
  · intro b hb
    rw [List.mem_singleton] at hb
    rw [hframe']
    exact ⟨Function.update_of_ne hb .., Function.update_of_ne hb ..⟩
  · intro b hb
    obtain rfl := List.mem_singleton.mp hb
    rw [FrameOk, hframe', Function.update_self]
    refine .inr ⟨rfl, by rw [hspawned]; exact hin.lt, hin.mem, ?_⟩
    simp [Frame.waits]
  · have hself : s'.frame h = some { f with pc := .ready next } := by
      rw [hframe', Function.update_self]
    refine .ongoing h as _ next st o hin.chain hself rfl rfl ?_
      (.inl (Function.update_self ..)) ?_ ?_
    · rw [hframe']
      exact hin.callers.update hin.notMem _
    · rw [(hrecords _).1]
      exact hin.reaches.move
    · rw [(hrecords _).2]
      exact hin.values

omit [NeZero n] in
theorem Inv.called {q : Option Obj} {callee : Routine Obj Act Ans Val}
    {k : Val → Routine Obj Act Ans Val} {p₀ : Obj} {c₀ : Routine Obj Act Ans Val} {as : List Addr}
    {st : List (Caller Obj Act Ans Val)} {x : Place Tid Obj} (hinv : Inv s g)
    (hin : Innermost s g h f (.call q callee k) p₀ c₀ as st p) (hframe : s.frame h = some f)
    (hfree : s.frame a = none)
    (hframe' : s'.frame = Function.update (Function.update s.frame h
      (some { f with pc := .awaiting none k })) a (some ⟨.ready callee, q, some (h, p), f.number⟩))
    (hbase : Executor.Inv s'.base) (hsound : s'.faulted = false)
    (hspawned : s'.spawned = s.spawned)
    (hrecords : ∀ j, s'.trace j = s.trace j ∧ s'.values j = s.values j)
    (htokens : Tokens s'.base s'.running
      (Function.update (Function.update g.place h .nowhere) a x)) (hx : x ≠ .nowhere)
    (hinTask : ∀ t p, s.base.inTask t p = true → s'.base.inTask t p = true)
    (hstands : Stands s'.base (Function.update (Function.update g.place h .nowhere) a x) a
      (q.getD p)) :
    Inv s' ⟨Function.update (Function.update g.place h .nowhere) a x,
      Function.update g.chain f.number (a :: h :: as)⟩ := by
  have hha : h ≠ a := by
    rintro rfl
    rw [hfree] at hframe
    cases hframe
  have hself : s'.frame a = some ⟨.ready callee, q, some (h, p), f.number⟩ := by
    rw [hframe', Function.update_self]
  have hcaller : s'.frame h = some { f with pc := .awaiting none k } := by
    rw [hframe', Function.update_of_ne hha, Function.update_self]
  refine hinv.advance hin [h, a] hbase hsound htokens (fun t a p _ => hinTask t p) hspawned
    ?_ ?_ ?_ ?_ ?_ (fun j _ => hrecords j) ?_
  · intro b hb
    rw [List.mem_pair, not_or] at hb
    rw [hframe', Function.update_of_ne hb.2, Function.update_of_ne hb.1]
    refine ⟨rfl, ?_⟩
    exact (Function.update_of_ne hb.2 ..).trans (Function.update_of_ne hb.1 ..)
  · intro b hb f' hf' _
    rcases List.mem_pair.mp hb with rfl | rfl
    · rw [hframe] at hf'
      rw [Option.some.inj hf']
    · rw [hfree] at hf'
      cases hf'
  · intro j hj
    exact Function.update_of_ne hj ..
  · intro b _ hb
    rw [hin.chain] at hb
    change b ∈ Function.update g.chain f.number (a :: h :: as) f.number
    rw [Function.update_self]
    exact List.mem_cons_of_mem _ hb
  · intro b hb
    rw [FrameOk]
    rcases List.mem_pair.mp hb with rfl | rfl
    · rw [hcaller]
      refine .inr ⟨rfl, by rw [hspawned]; exact hin.lt, ?_, ?_⟩
      · change b ∈ Function.update g.chain f.number (a :: b :: as) f.number
        rw [Function.update_self]
        exact List.mem_cons_of_mem _ List.mem_cons_self
      · change Function.update (Function.update g.place b .nowhere) a x b = .nowhere ↔ _
        rw [Function.update_of_ne hha, Function.update_self]
        simp [Frame.waits]
    · rw [hself]
      refine .inr ⟨rfl, by rw [hspawned]; exact hin.lt, ?_, ?_⟩
      · change b ∈ Function.update g.chain f.number (b :: h :: as) f.number
        rw [Function.update_self]
        exact List.mem_cons_self
      · change Function.update (Function.update g.place h .nowhere) b x b = .nowhere ↔ _
        rw [Function.update_self]
        simp [Frame.waits, hx]
  -- the new frame is at none of the addresses of the callers
  · have hnotMem : a ∉ as := by
      intro hmem
      obtain ⟨f', hf', -⟩ := hin.callers.mem hmem
      rw [hfree] at hf'
      cases hf'
    have hcallers : Callers s'.frame f.number f.callfunc as st := by
      rw [hframe']
      exact (hin.callers.update hin.notMem _).update hnotMem _
    refine .ongoing a (h :: as) _ callee ((p, k) :: st) (q.getD p) (Function.update_self ..) hself
      rfl rfl (.caller hcaller rfl rfl hin.notMem hcallers) hstands ?_ ?_
    · rw [(hrecords _).1]
      exact hin.reaches.call
    · rw [(hrecords _).2]
      exact hin.values

theorem Inv.await {q : Option Obj} {callee : Routine Obj Act Ans Val}
    {k : Val → Routine Obj Act Ans Val} (hinv : Inv s g) (hrunning : s.running t = some h)
    (hframe : s.frame h = some f) (hpc : f.pc = .ready (.call q callee k))
    (hfree : s.frame a = none) (hs : s.await t h f a q callee k = some s') : ∃ g', Inv s' g' := by
  obtain ⟨p₀, c₀, as, st, p, hin⟩ := hinv.innermost hframe
    (show f.next = some (.call q callee k) by rw [Frame.next, hpc])
  obtain ⟨hinTask, hp⟩ := hinv.stands hrunning hin.stands
  have hleft := hinv.tokens.leave hrunning
  have hnowhere : Function.update g.place h .nowhere a = .nowhere := by
    by_cases hah : a = h
    · rw [hah, Function.update_self]
    · rw [Function.update_of_ne hah]
      exact hinv.nowhere hfree
  rw [State.await, hp] at hs
  cases q with
  | some o =>
    have hposts := posts_of_post hs
    refine ⟨_, hinv.called hin hframe hfree hposts.frame (hposts.linked.inv hinv.base)
      (hposts.faulted.trans hinv.sound) hposts.spawned
      (records_congr hposts.events hposts.returned) ?_ (x := .queued o) (by simp)
      hposts.linked.inTask (.inl (Function.update_self ..))⟩
    rw [hposts.running]
    exact hleft.post hnowhere hposts.linked.inTask hposts.linked.self hposts.linked.other
  | none =>
    obtain rfl := Option.some.inj hs
    have hstarted := hleft.start hnowhere (Function.update_self ..) hinTask
    rw [Function.update_idem] at hstarted
    exact ⟨_, hinv.called hin hframe hfree rfl hinv.base hinv.sound rfl (fun _ => ⟨rfl, rfl⟩)
      hstarted (by simp) (fun _ _ => id) (.inr ⟨t, Function.update_self .., hinTask⟩)⟩

omit [NeZero n] in
theorem Inv.returnLast {v : Val} (hinv : Inv s g) (hrunning : s.running t = some h)
    (hframe : s.frame h = some f) (hpc : f.pc = .ready (.ret v)) (hcallfunc : f.callfunc = none) :
    Inv { s.setFrame h { f with pc := .final } with returned := s.returned ++ [(f.number, v)] }
      ⟨g.place, Function.update g.chain f.number []⟩ := by
  obtain ⟨p₀, c₀, as, st, p, hin⟩ := hinv.innermost hframe
    (show f.next = some (.ret v) by rw [Frame.next, hpc])
  have hcallers := hin.callers
  rw [hcallfunc] at hcallers
  cases hcallers
  refine hinv.advance hin [h] hinv.base hinv.sound hinv.tokens (fun _ _ _ _ => id) rfl ?_
    (own_singleton hframe) ?_ ?_ ?_ ?_ ?_
  · intro b hb
    rw [List.mem_singleton] at hb
    exact ⟨Function.update_of_ne hb .., rfl⟩
  · intro j hj
    exact Function.update_of_ne hj ..
  · intro b hb hmem
    rw [hin.chain] at hmem
    exact absurd hmem hb
  · intro b hb
    obtain rfl := List.mem_singleton.mp hb
    rw [FrameOk]
    simp only [State.setFrame, Function.update_self]
    exact .inl ⟨rfl, t, (hinv.tokens.running t b).mp hrunning⟩
  · intro j hj
    exact ⟨rfl, recorded_other _ _ hj⟩
  · refine .returned v (Function.update_self ..) ?_ hin.reaches.eval
    change recorded (s.returned ++ [_]) f.number = [v]
    rw [recorded_self]
    exact congrArg (· ++ [v]) hin.values

theorem Inv.returnTo {v : Val} {c : Addr} {q : Obj} {f' : Frame Obj Act Ans Val}
    {k : Val → Routine Obj Act Ans Val} {p₀ : Obj} {c₀ : Routine Obj Act Ans Val} {as : List Addr}
    {st : List (Caller Obj Act Ans Val)} (hinv : Inv s g)
    (hin : Innermost s g h f (.ret v) p₀ c₀ (c :: as) ((q, k) :: st) p)
    (hrunning : s.running t = some h) (hframe : s.frame h = some f) (hc : s.frame c = some f')
    (hpc : f'.pc = .awaiting none k) (hnumber : f'.number = f.number)
    (hnotMem : c ∉ as) (hcallers : Callers s.frame f.number f'.callfunc as st)
    (hs : ((s.setFrame h { f with pc := .final }).setFrame c
      { f' with pc := .awaiting (some v) k }).post t q c = some s') : ∃ g', Inv s' g' := by
  have hhc : c ≠ h := fun he => hin.notMem (he ▸ List.mem_cons_self)
  have hposts := posts_of_post hs
  have hframe' : s'.frame = Function.update (Function.update s.frame h
      (some { f with pc := .final })) c (some { f' with pc := .awaiting (some v) k }) :=
    hposts.frame
  have hspawned : s'.spawned = s.spawned := hposts.spawned
  have hrecords : ∀ j, s'.trace j = s.trace j ∧ s'.values j = s.values j :=
    records_congr hposts.events hposts.returned
  have hself : s'.frame c = some { f' with pc := .awaiting (some v) k } := by
    rw [hframe', Function.update_self]
  have hplace : g.place c = .nowhere := by
    have hok := hinv.frames c
    rw [FrameOk, hc] at hok
    rcases hok with ⟨hfinal, -⟩ | ⟨-, -, -, hwaits⟩
    · rw [Frame.isFinal, hpc] at hfinal
      cases hfinal
    · exact hwaits.mpr (by rw [Frame.waits, hpc])
  have htokens : Tokens s'.base s'.running (Function.update g.place c (.queued q)) := by
    rw [hposts.running]
    exact hinv.tokens.post hplace hposts.linked.inTask hposts.linked.self hposts.linked.other
  refine ⟨⟨Function.update g.place c (.queued q), Function.update g.chain f.number (c :: as)⟩,
    hinv.advance hin [h, c] (hposts.linked.inv hinv.base) (hposts.faulted.trans hinv.sound) htokens
      (fun t a p _ => hposts.linked.inTask t p) hspawned ?_ ?_ ?_ ?_ ?_ (fun j _ => hrecords j) ?_⟩
  · intro b hb
    rw [List.mem_pair, not_or] at hb
    rw [hframe', Function.update_of_ne hb.2, Function.update_of_ne hb.1]
    exact ⟨rfl, Function.update_of_ne hb.2 ..⟩
  · intro b hb f₁ hf₁ _
    rcases List.mem_pair.mp hb with rfl | rfl
    · rw [hframe] at hf₁
      rw [Option.some.inj hf₁]
    · rw [hc] at hf₁
      rw [← Option.some.inj hf₁, hnumber]
  · intro j hj
    exact Function.update_of_ne hj ..
  · intro b hb hmem
    rw [hin.chain] at hmem
    rw [List.mem_pair, not_or] at hb
    change b ∈ Function.update g.chain f.number (c :: as) f.number
    rw [Function.update_self]
    exact (List.mem_cons.mp hmem).resolve_left hb.1
  · intro b hb
    rw [FrameOk]
    rcases List.mem_pair.mp hb with rfl | rfl
    · rw [hframe', Function.update_of_ne hhc.symm, Function.update_self]
      refine .inl ⟨rfl, t, ?_⟩
      exact (Function.update_of_ne hhc.symm ..).trans ((hinv.tokens.running t b).mp hrunning)
    · rw [hself]
      refine .inr ⟨rfl, ?_, ?_, ?_⟩
      · rw [hspawned]
        exact hnumber ▸ hin.lt
      · change b ∈ Function.update g.chain f.number (b :: as) f'.number
        rw [hnumber, Function.update_self]
        exact List.mem_cons_self
      · change Function.update g.place b (.queued q) b = .nowhere ↔ _
        rw [Function.update_self]
        simp [Frame.waits]
  · refine .ongoing c as _ (k v) st q (Function.update_self ..) hself hnumber rfl ?_
      (.inl (Function.update_self ..)) ?_ ?_
    · rw [hframe']
      exact (hcallers.update (fun hmem => hin.notMem (List.mem_cons_of_mem _ hmem)) _).update
        hnotMem _
    · rw [(hrecords _).1]
      exact hin.reaches.ret
    · rw [(hrecords _).2]
      exact hin.values

theorem Inv.finalSuspend {v : Val} (hinv : Inv s g) (hrunning : s.running t = some h)
    (hframe : s.frame h = some f) (hpc : f.pc = .ready (.ret v))
    (hs : s.finalSuspend t h f v = some s') : ∃ g', Inv s' g' := by
  obtain ⟨p₀, c₀, as, st, p, hin⟩ := hinv.innermost hframe
    (show f.next = some (.ret v) by rw [Frame.next, hpc])
  simp only [State.finalSuspend] at hs
  split at hs
  · rename_i hcallfunc
    obtain rfl := Option.some.inj hs
    exact ⟨_, hinv.returnLast hrunning hframe hpc hcallfunc⟩
  · rename_i c q hcallfunc
    have hcallers := hin.callers
    rw [hcallfunc] at hcallers
    cases hcallers with
    | caller hc hpc' hnumber hnotMem hcallers =>
      have hhc : c ≠ h := fun he => hin.notMem (he ▸ List.mem_cons_self)
      have hsame : (s.setFrame h { f with pc := .final }).frame c = some _ :=
        (Function.update_of_ne hhc ..).trans hc
      rw [hsame] at hs
      simp only [hpc'] at hs
      exact hinv.returnTo hin hrunning hframe hc hpc' hnumber hnotMem hcallers hs

omit [NeZero n] in
theorem Inv.destroy (hinv : Inv s g) (hrunning : s.running t = some h)
    (hframe : s.frame h = some f) (hpc : f.pc = .final) :
    Inv (s.destroy t h) ⟨Function.update g.place h .nowhere, g.chain⟩ where
  base := hinv.base
  sound := hinv.sound
  tokens := hinv.tokens.leave hrunning
  frames b := by
    by_cases hb : b = h
    · subst hb
      rw [FrameOk]
      simp [State.destroy]
    · exact (hinv.frames b).keep (Function.update_of_ne hb ..) (Function.update_of_ne hb ..) le_rfl
        fun _ => id
  roots i p c hi := by
    have hr := hinv.roots i p c hi
    refine hr.keep hinv.tokens (fun _ _ _ _ => id) rfl ?_ rfl rfl
    intro b hb
    obtain ⟨f', hf', -, hfinal⟩ := hr.mem hb
    have hbh : b ≠ h := by
      rintro rfl
      obtain rfl := Option.some.inj (hf'.symm.trans hframe)
      rw [Frame.isFinal, hpc] at hfinal
      cases hfinal
    exact ⟨Function.update_of_ne hbh .., Function.update_of_ne hbh ..⟩
  fresh := hinv.fresh

omit [DecidableEq Obj] [NeZero n] in
theorem resume_eq (hrunning : ∀ u, s.running u ≠ some h) (hframe : s.frame h = some f)
    (hnext : f.next = some code) :
    s.resume t h = (s.setFrame h { f with pc := .ready code }).setRunning t (some h) := by
  rw [State.resume, if_neg (by rintro ⟨u, hu⟩; exact hrunning u hu)]
  simp only [hframe]
  rw [Frame.next] at hnext
  split
  · rename_i code' hpc
    rw [hpc] at hnext
    obtain rfl := Option.some.inj hnext
    have hsame : ({ f with pc := .ready code' } : Frame Obj Act Ans Val) = f := by rw [← hpc]
    rw [hsame, State.setFrame, ← hframe, Function.update_eq_self]
  · rename_i v k hpc
    rw [hpc] at hnext
    obtain rfl := Option.some.inj hnext
    rfl
  · rename_i k hpc
    rw [hpc] at hnext
    cases hnext
  · rename_i hpc
    rw [hpc] at hnext
    cases hnext

omit [NeZero n] in
theorem Inv.resume {base : Executor.State n Tid Obj (Job Task)} (hinv : Inv s g)
    (hbase : Executor.Inv base) (hidle : s.running t = none)
    (hinTask : ∀ t a p, s.running t = some a → s.base.inTask t p = true → base.inTask t p = true)
    (hself : handles s.base o = h :: handles base o)
    (hother : ∀ p ≠ o, handles base p = handles s.base p) (hstarts : base.inTask t o = true) :
    ∃ g', Inv (({ s with base := base } : State n Tid Obj Task Act Ans Val).resume t h) g' := by
  obtain ⟨hplace, htaken⟩ := hinv.tokens.take hinTask hself hother
  have hok := hinv.frames h
  rw [FrameOk] at hok
  cases hframe : s.frame h with
  | none =>
    rw [hframe] at hok
    rw [hplace] at hok
    cases hok
  | some f =>
    rw [hframe] at hok
    -- a coroutine that waits, or that is over, is in no mailbox
    obtain ⟨hfinal, hwaits⟩ : f.isFinal = false ∧ f.waits = false := by
      rcases hok with ⟨-, u, hu⟩ | ⟨hfinal, -, -, hwaits⟩
      · rw [hplace] at hu
        cases hu
      · refine ⟨hfinal, Bool.eq_false_of_not_eq_true fun hw => ?_⟩
        have hnowhere := hwaits.mpr hw
        rw [hplace] at hnowhere
        cases hnowhere
    obtain ⟨code, hnext⟩ := Frame.next_isSome hfinal hwaits
    obtain ⟨p₀, c₀, as, st, p, hin⟩ := hinv.innermost hframe hnext
    obtain rfl : o = p := by
      rcases hin.stands with hqueued | ⟨u, hu, -⟩
      · exact Place.queued.inj (hplace.symm.trans hqueued)
      · rw [hplace] at hu
        cases hu
    have hnotRunning : ∀ u, s.running u ≠ some h := by
      intro u hu
      have hrunning := (hinv.tokens.running u h).mp hu
      rw [hplace] at hrunning
      cases hrunning
    have htokens := htaken.start (Function.update_self ..) hidle hstarts
    rw [Function.update_idem] at htokens
    rw [resume_eq (s := { s with base := base }) hnotRunning hframe hnext]
    refine ⟨⟨Function.update g.place h (.running t), g.chain⟩,
      hinv.advance hin [h] hbase hinv.sound htokens hinTask rfl ?_ (own_singleton hframe)
        (fun _ _ => rfl) (fun _ _ => id) ?_ (fun _ _ => ⟨rfl, rfl⟩) ?_⟩
    · intro b hb
      rw [List.mem_singleton] at hb
      exact ⟨Function.update_of_ne hb .., Function.update_of_ne hb ..⟩
    · intro b hb
      obtain rfl := List.mem_singleton.mp hb
      rw [FrameOk]
      simp only [State.setFrame, State.setRunning, Function.update_self]
      refine .inr ⟨rfl, hin.lt, hin.mem, ?_⟩
      simp [Frame.waits]
    · exact .ongoing h as _ code st o hin.chain (Function.update_self ..) rfl rfl
        (hin.callers.update hin.notMem _) (.inr ⟨t, Function.update_self .., hstarts⟩) hin.reaches
        hin.values

omit [NeZero n] in
theorem Inv.stay {base : Executor.State n Tid Obj (Job Task)} (hinv : Inv s g)
    (hbase : Executor.Inv base)
    (hinTask : ∀ t a p, s.running t = some a → s.base.inTask t p = true → base.inTask t p = true)
    (hsame : ∀ o, handles base o = handles s.base o) : Inv { s with base := base } g where
  base := hbase
  sound := hinv.sound
  tokens := hinv.tokens.stay hinTask hsame
  frames b := (hinv.frames b).keep rfl rfl le_rfl fun _ => id
  roots i p c hi :=
    (hinv.roots i p c hi).keep hinv.tokens hinTask rfl (fun _ _ => ⟨rfl, rfl⟩) rfl rfl
  fresh := hinv.fresh

omit [Fintype Tid] in
theorem pop_idle {base base' : Executor.State n Tid Obj Task}
    (hs : Executor.step base (.mailbox o (.pop t)) = some base') :
    ((base.object o).thread t).run ≠ .idle ∧ base.inTask t o = false := by
  simp only [Executor.step] at hs
  split at hs
  · obtain ⟨m, hm, -⟩ := Executor.ofMailbox_eq_some.mp hs
    obtain ⟨start, size, i, k, hrun, -⟩ := TaskSerializer.step_pop.mp hm
    rw [Executor.State.inTask, hrun]
    exact ⟨by simp, rfl⟩
  · cases hs

theorem Inv.pop_not_running {base : Executor.State n Tid Obj (Job Task)} (hinv : Inv s g)
    (hs : Executor.step s.base (.mailbox o (.pop t)) = some base) : s.running t = none := by
  obtain ⟨hbusy, hout⟩ := pop_idle hs
  cases hrunning : s.running t with
  | none => rfl
  | some a =>
    obtain ⟨p, hin⟩ := hinv.tokens.inTask t a hrunning
    have ho := (hinv.base.control.running t o hbusy).2
    obtain rfl := Option.some.inj (ho.symm.trans (hinv.executor hin))
    rw [hout] at hin
    cases hin

end Bugat.AwaitCall
