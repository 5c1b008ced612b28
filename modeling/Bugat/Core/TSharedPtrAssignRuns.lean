import Mathlib
import Bugat.Core.TSharedPtrCascade

/-!
# The runs of an assignment

Every step of the cascade takes from a measure of the live handles and the open operations,
so the assignment comes to its last step. What it finds there decides whether it has
survived: its two handles, and the handles to the new object that the `Reset` has left.
-/

namespace Bugat.TSharedPtr

open MachineInt (wrap32 int32Max)
open Transition (exec Along exec_cons_eq_some along_cons)

variable {Hdl Obj : Type*} [DecidableEq Hdl] [DecidableEq Obj]

section Measure

def Frame.weight : Frame Hdl Obj → ℕ
  | .reset _ _ => 6
  | .drop _ => 3
  | .clear _ _ | .body _ => 2
  | .finish _ _ | .fields _ => 1

def killed (st : Stack Hdl Obj) : List Hdl := st.filterMap Frame.kills

def intact (u : Shared Hdl Obj) (st : Stack Hdl Obj) : Finset Hdl :=
  u.live.filter fun h => h ∉ killed st

def work (u : Shared Hdl Obj) (st : Stack Hdl Obj) : ℕ :=
  7 * (intact u st).card + (st.map Frame.weight).sum

variable {u u' : Shared Hdl Obj} {st st' rest : Stack Hdl Obj} {h : Hdl} {after : After Hdl}

omit [DecidableEq Obj] in
theorem mem_intact : h ∈ intact u st ↔ h ∈ u.live ∧ h ∉ killed st := Finset.mem_filter

omit [DecidableEq Hdl] [DecidableEq Obj] in
theorem killed_kill {f : Frame Hdl Obj} (hf : f.kills = some h) :
    killed (f :: st) = h :: killed st :=
  List.filterMap_cons_some hf

omit [DecidableEq Obj] in
theorem work_lt (hlive : u'.live = u.live) (hkilled : killed st' = killed st)
    (hweight : (st'.map Frame.weight).sum < (st.map Frame.weight).sum) :
    work u' st' < work u st := by
  have hsame : intact u' st' = intact u st := by rw [intact, hlive, hkilled, intact]
  rw [work, work, hsame]
  omega

theorem intact_finish : intact (u.finish h after) rest = intact u (.finish h after :: rest) := by
  cases after with
  | kill =>
    ext h'
    have hlive : h' ∈ (u.finish h .kill).live ↔ h' ≠ h ∧ h' ∈ u.live := Finset.mem_erase
    rw [mem_intact, mem_intact, killed_kill rfl, hlive, List.mem_cons, not_or]
    tauto
  | done | steal src => rfl
  | acquire src | share src =>
    have hlive : (u.acquire h src).live = u.live := by
      rw [Shared.acquire]
      split <;> rfl
    exact congrArg (fun live : Finset Hdl => live.filter fun h => h ∉ killed rest) hlive

theorem go_work (hs : go u st = some (u', st')) : work u' st' < work u st := by
  cases st with
  | nil => cases hs
  | cons f rest =>
    cases f with
    | reset h a =>
      have hreset : resetStep u h a rest = (u', st') := Option.some.inj hs
      cases hptr : u.ptr h with
      | none =>
        obtain ⟨rfl, rfl⟩ := Prod.mk.inj ((resetStep_none hptr).symm.trans hreset)
        exact work_lt rfl rfl (by simp [Frame.weight])
      | some o =>
        obtain ⟨rfl, rfl⟩ := Prod.mk.inj ((resetStep_some hptr).symm.trans hreset)
        split
        · refine work_lt rfl rfl ?_
          simp only [List.cons_append, List.nil_append, List.map_cons, List.sum_cons, Frame.weight]
          omega
        · exact work_lt rfl rfl (by simp [Frame.weight])
    | clear h a =>
      obtain ⟨rfl, rfl⟩ := Prod.mk.inj (Option.some.inj hs)
      exact work_lt rfl rfl (by simp [Frame.weight])
    | finish h a =>
      obtain ⟨rfl, rfl⟩ := Prod.mk.inj (Option.some.inj hs)
      rw [work, work, intact_finish]
      simp [Frame.weight]
    | drop o | body o =>
      obtain ⟨rfl, rfl⟩ := Prod.mk.inj (Option.some.inj hs)
      exact work_lt rfl rfl (by simp [Frame.weight])
    | fields o =>
      rw [go] at hs
      split at hs
      · obtain ⟨rfl, rfl⟩ := Prod.mk.inj (Option.some.inj hs)
        exact work_lt rfl rfl (by simp [Frame.weight])
      · cases hs

omit [DecidableEq Obj] in
theorem field_work (hlive : h ∈ u.live) (hnot : h ∉ killed st) :
    work u (.reset h .kill :: st) < work u st := by
  have herase : intact u (.reset h .kill :: st) = (intact u st).erase h := by
    ext h'
    rw [Finset.mem_erase, mem_intact, mem_intact, killed_kill rfl, List.mem_cons, not_or]
    tauto
  have hmem : h ∈ intact u st := Finset.mem_filter.mpr ⟨hlive, hnot⟩
  have hpos := Finset.card_pos.mpr ⟨h, hmem⟩
  have hcard := Finset.card_erase_of_mem hmem
  rw [work, work, herase, hcard]
  simp only [List.map_cons, List.sum_cons, Frame.weight]
  omega

end Measure

section Runs

variable {u₀ u u' : Shared Hdl Obj} {st st' : Stack Hdl Obj} {dst src h : Hdl} {after : After Hdl}
  {o : Obj} {k : Assignment} {l : Unit × Action Hdl Obj} {ls : List (Unit × Action Hdl Obj)}
  {s : State Hdl Obj Unit}

omit [DecidableEq Hdl] [DecidableEq Obj] in
theorem Internal.cons (hint : Internal (l :: ls)) : (∀ op, l.2 ≠ .call op) ∧ Internal ls :=
  ⟨hint l List.mem_cons_self, fun l' hl' => hint l' (List.mem_cons_of_mem l hl')⟩

theorem idle_step (hcall : ∀ op, l.2 ≠ .call op) : step (single u []) l = none := by
  obtain ⟨⟨⟩, a⟩ := l
  rw [step_single]
  cases a with
  | call op => exact absurd rfl (hcall op)
  | go => rfl
  | field h => rfl

theorem idle_run (hint : Internal ls) (hrun : exec step (single u []) ls = some s) :
    s = single u [] := by
  cases ls with
  | nil => exact (Option.some.inj hrun).symm
  | cons l ls =>
    obtain ⟨t, hstep, -⟩ := exec_cons_eq_some.mp hrun
    rw [idle_step hint.cons.1] at hstep
    cases hstep

theorem idle_along {ok : State Hdl Obj Unit → Unit × Action Hdl Obj → Prop} (hint : Internal ls) :
    Along ok step (single u []) ls := by
  cases ls with
  | nil => trivial
  | cons l ls =>
    refine along_cons.mpr fun t hstep => ?_
    rw [idle_step hint.cons.1] at hstep
    cases hstep

theorem Running.run (hr : Running u₀ dst after u st) (hint : Internal ls)
    (hkeep : Along KeepsUsed step (single u st) ls) (hrun : exec step (single u st) ls = some s)
    (hend : s.thread () = []) :
    ∃ u₁, Running u₀ dst after u₁ [.finish dst after] ∧ s = single (u₁.finish dst after) [] := by
  induction ls generalizing u st with
  | nil =>
    obtain rfl := Option.some.inj hrun
    exact absurd hend hr.cascade.ne_nil
  | cons l ls ih =>
    obtain ⟨t, hstep, hrest⟩ := exec_cons_eq_some.mp hrun
    obtain ⟨hkept, hkeeps⟩ := along_cons.mp hkeep t hstep
    obtain ⟨hcall, hint'⟩ := hint.cons
    obtain ⟨u', st', hact, rfl⟩ := step_single_eq_some.mp hstep
    rcases hr.advance hcall hkept hact with hr' | ⟨rfl, rfl, rfl⟩
    · exact ih hr' hint' hkeeps hrest
    · exact ⟨u, hr, idle_run hint' hrest⟩

section Outside

variable (hdst : ¬ Lost u₀ dst dst) (hsrc : ∀ h ∈ after.uses, ¬ Lost u₀ dst h)
include hdst hsrc

theorem Running.keeps (hr : Running u₀ dst after u st) (hint : Internal ls) :
    Along KeepsUsed step (single u st) ls := by
  induction ls generalizing u st with
  | nil => trivial
  | cons l ls ih =>
    refine along_cons.mpr fun t hstep => ?_
    obtain ⟨hcall, hint'⟩ := hint.cons
    obtain ⟨u', st', hact, rfl⟩ := step_single_eq_some.mp hstep
    have hkept := hr.keepsUsed hdst hsrc hact hcall
    refine ⟨hkept, ?_⟩
    rcases hr.advance hcall hkept hact with hr' | ⟨rfl, rfl, rfl⟩
    · exact ih hr' hint'
    · exact idle_along hint'

/-- Some step of the cascade is always possible, and it takes from the work left. -/
theorem Running.progress (hr : Running u₀ dst after u st) : ∃ a u' st',
    (∀ op, a ≠ .call op) ∧ act u st a = some (u', st') ∧ work u' st' < work u st := by
  cases st with
  | nil => exact absurd rfl hr.cascade.ne_nil
  | cons f rest =>
    by_cases hfield : ∃ o, f = .fields o ∧ ∃ h ∈ u.live, u.home h = some o
    · obtain ⟨o, rfl, h, hlive, hhome⟩ := hfield
      have hact : act u (.fields o :: rest) (.field h) =
          some (u, .reset h .kill :: .fields o :: rest) := by
        rw [act, if_pos ⟨hlive, hhome⟩]
      refine ⟨.field h, _, _, by simp, hact, field_work hlive fun hkilled => ?_⟩
      obtain ⟨f, hf, hkills⟩ := List.mem_filterMap.mp hkilled
      exact hr.keepsUsed hdst hsrc hact (by simp) h rfl f hf (Frame.kills_uses hkills)
    · have hgo : ∃ p, go u (f :: rest) = some p := by
        cases f with
        | fields o =>
          rw [not_exists] at hfield
          have hnone : ∀ h ∈ u.live, u.home h ≠ some o := fun h hlive hhome =>
            hfield o ⟨rfl, h, hlive, hhome⟩
          exact ⟨_, if_pos hnone⟩
        | reset | clear | finish | drop | body => exact ⟨_, rfl⟩
      obtain ⟨⟨u', st'⟩, hgo⟩ := hgo
      exact ⟨.go, u', st', by simp, hgo, go_work hgo⟩

theorem Running.completes (n : ℕ) : ∀ {u : Shared Hdl Obj} {st : Stack Hdl Obj},
    Running u₀ dst after u st → work u st ≤ n →
    ∃ ls s, Internal ls ∧ exec step (single u st) ls = some s ∧ s.thread () = [] := by
  induction n with
  | zero =>
    intro u st hr hwork
    obtain ⟨a, u', st', -, -, hlt⟩ := hr.progress hdst hsrc
    exact absurd hlt (by omega)
  | succ n ih =>
    intro u st hr hwork
    obtain ⟨a, u', st', hcall, hact, hlt⟩ := hr.progress hdst hsrc
    have hstep : step (single u st) ((), a) = some (single u' st') :=
      step_single_eq_some.mpr ⟨u', st', hact, rfl⟩
    obtain ⟨ls, s, hint, hrun, hend⟩ : ∃ ls s, Internal ls ∧
        exec step (single u' st') ls = some s ∧ s.thread () = [] := by
      rcases hr.advance hcall (hr.keepsUsed hdst hsrc hact hcall) hact with hr' | ⟨-, -, rfl⟩
      · exact ih hr' (by omega)
      · exact ⟨[], _, fun _ hl => absurd hl List.not_mem_nil, rfl, rfl⟩
    refine ⟨((), a) :: ls, s, fun l hl => ?_, exec_cons_eq_some.mpr ⟨_, hstep, hrun⟩, hend⟩
    rcases List.mem_cons.mp hl with rfl | hl
    · exact hcall
    · exact hint l hl

end Outside

omit [DecidableEq Hdl] in
theorem after_uses : (k.after src).uses = [src] := by
  cases k <;> rfl

omit [DecidableEq Hdl] in
theorem src_used : src ∈ (k.after src).uses := by
  simp [after_uses]

section Ends

variable (hr : Running u₀ dst (k.after src) u [.finish dst (k.after src)])
include hr

theorem Running.end_live : (u.finish dst (k.after src)).live = u.live := by
  cases k with
  | move => rfl
  | copy | convert =>
    simp only [Assignment.after, Shared.finish, Shared.acquire]
    split <;> rfl

variable (hheap : Heap u₀)
include hheap

theorem Running.points : (u.finish dst (k.after src)).ptr dst = u₀.ptr src := by
  obtain ⟨hne, hptr, -⟩ := hr.src_same hheap src_used
  rw [← hptr]
  cases k with
  | move => simp [Assignment.after, Shared.finish, Shared.steal, hne.symm]
  | copy | convert =>
    simp only [Assignment.after, Shared.finish, Shared.acquire]
    split
    · rename_i hnone
      simp [Shared.setPtr, hnone]
    · rename_i o hsome
      simp [Shared.setPtr, Shared.addRefCount, hsome]

theorem Running.assigned
    (hroom : ∀ h ∈ (k.after src).adds, ∀ o ∈ u₀.ptr h, ((survivors u₀ dst o).card : ℤ) < int32Max) :
    Assigned u₀ dst src (u.finish dst (k.after src)) := by
  have hlast : NoOverflow u [.finish dst (k.after src)] := by
    intro f hf h hadds o ho
    obtain rfl := Option.some.inj hf
    have hsrc : h ∈ (k.after src).uses := by
      cases k with
      | move => cases hadds
      | copy | convert => exact Option.some.inj hadds ▸ List.mem_singleton_self _
    rw [(hr.src_same hheap hsrc).2.1] at ho
    rw [hr.inv.count o, hr.holders_eq hheap]
    exact hroom h hadds o ho
  have hstep : step (single u [.finish dst (k.after src)]) ((), .go) =
      some (single (u.finish dst (k.after src)) []) := step_single_eq_some.mpr ⟨_, _, rfl, rfl⟩
  have hfinal := heap_of_reached (hr.reached.step
    (fun _ _ _ hh => absurd hh List.not_mem_nil) (fun _ _ _ hh => by cases hh) hlast hstep)
  have hlive : dst ∈ (u.finish dst (k.after src)).live := hr.end_live ▸ hr.dst_live
  have hpoints := hr.points hheap
  exact ⟨hlive, hpoints, fun o ho => hfinal.alive hlive (hpoints.trans ho), hfinal.count⟩

theorem Running.room (hassigned : Assigned u₀ dst src (u.finish dst (k.after src))) :
    ∀ h ∈ (k.after src).adds, ∀ o ∈ u₀.ptr h, ((survivors u₀ dst o).card : ℤ) < int32Max := by
  intro h hadds o ho
  obtain ⟨rfl, hafter⟩ : src = h ∧ k.after src = .acquire src := by
    cases k with
    | move => cases hadds
    | copy | convert => exact ⟨Option.some.inj hadds, rfl⟩
  obtain ⟨hne, hptr, -⟩ := hr.src_same hheap src_used
  have hend : u.finish dst (k.after src) = (u.setPtr dst (some o)).addRefCount dst o := by
    have hsome : u.ptr src = some o := hptr.trans ho
    rw [hafter, Shared.finish, Shared.acquire, hsome]
  have hbound : ((handlesTo (u.finish dst (k.after src)) o).card : ℤ) ≤ int32Max := by
    rw [← hassigned.count o, hend]
    change Function.update u.refCount o (wrap32 (u.refCount o + 1)) o ≤ int32Max
    rw [Function.update_self]
    exact MachineInt.wrap32_upper _
  have hnot : dst ∉ survivors u₀ dst o := by
    rw [← hr.holders_eq hheap]
    intro hmem
    have hcounted := (Finset.mem_filter.mp hmem).2
    exact Option.some_ne_none o (hcounted.symm.trans hr.counted_dst.2)
  have hsub : insert dst (survivors u₀ dst o) ⊆ handlesTo (u.finish dst (k.after src)) o := by
    intro h' hh'
    rw [handlesTo, Finset.mem_filter, hr.end_live]
    rcases Finset.mem_insert.mp hh' with rfl | hh'
    · exact ⟨hr.dst_live, (hr.points hheap).trans ho⟩
    · have hne' : h' ≠ dst := ne_of_mem_of_not_mem hh' hnot
      rw [← hr.holders_eq hheap] at hh'
      obtain ⟨hlive, hcounted⟩ := Finset.mem_filter.mp hh'
      refine ⟨hlive, ?_⟩
      rw [hend]
      exact (Function.update_of_ne hne' _ _).trans (hr.inv.points h' hlive o hcounted).1
  have hcard := Finset.card_le_card hsub
  rw [Finset.card_insert_of_notMem hnot] at hcard
  omega

end Ends

theorem Heap.start (hheap : Heap u₀) (hdst : u₀.Usable dst) (hsrc : u₀.Usable src)
    (hresets : k.resets u₀ dst src) :
    Running u₀ dst (k.after src) u₀ [.reset dst (k.after src)] where
  reached := by
    have hcall := call_assign (k := k) hdst hsrc
    rw [if_pos hresets] at hcall
    have hstep : step (single u₀ []) ((), .call (k.op dst src)) =
        some (single u₀ [.reset dst (k.after src)]) := step_single_eq_some.mpr ⟨_, _, hcall, rfl⟩
    refine hheap.reached.step (fun f hf => ?_) (fun f hf => ?_) (fun f hf => ?_) hstep
    · exact absurd hf List.not_mem_nil
    · exact absurd hf List.not_mem_nil
    · cases hf
  cascade := .bottom rfl
  live _ hlive := hlive
  home := rfl
  counted h o hlive hcounted := (hheap.settled h hlive).symm.trans hcounted
  dropped _ ho := .inr ho
  keep h hlive _ := ⟨hlive, fun _ => ⟨rfl, hheap.settled h hlive⟩⟩

structure SurvivesFrom (u₀ : Shared Hdl Obj) (dst src : Hdl) (st : Stack Hdl Obj) : Prop where
  completes : ∃ ls s, Internal ls ∧ exec step (single u₀ st) ls = some s ∧ s.thread () = []
  keeps : ∀ ls, Internal ls → Along KeepsUsed step (single u₀ st) ls
  assigned : ∀ ls s, Internal ls → exec step (single u₀ st) ls = some s → s.thread () = [] →
    Assigned u₀ dst src s.shared

theorem survives_iff_from (hact : act u₀ [] (.call (k.op dst src)) = some (u₀, st)) :
    Survives u₀ k dst src ↔ SurvivesFrom u₀ dst src st := by
  have hcall : step (single u₀ []) ((), .call (k.op dst src)) = some (single u₀ st) :=
    step_single_eq_some.mpr ⟨u₀, st, hact, rfl⟩
  have hrun : ∀ ls s, exec step (single u₀ []) (((), .call (k.op dst src)) :: ls) = some s ↔
      exec step (single u₀ st) ls = some s := by
    intro ls s
    rw [exec_cons_eq_some]
    simp [hcall]
  have hkeeps : ∀ ls, Along KeepsUsed step (single u₀ []) (((), .call (k.op dst src)) :: ls) ↔
      Along KeepsUsed step (single u₀ st) ls := by
    intro ls
    have hnone : KeepsUsed (single u₀ []) ((), .call (k.op dst src)) :=
      fun _ _ _ hf => absurd hf List.not_mem_nil
    rw [along_cons]
    simp [hcall, hnone]
  constructor
  · rintro ⟨completes, keeps, assigned⟩
    simp only [hrun, hkeeps] at completes keeps assigned
    exact ⟨completes, keeps, assigned⟩
  · rintro ⟨completes, keeps, assigned⟩
    constructor
    · simpa only [hrun] using completes
    · simpa only [hkeeps] using keeps
    · simpa only [hrun] using assigned

theorem Heap.survives_idle (hheap : Heap u₀) (hdst : u₀.Usable dst)
    (hsame : u₀.ptr dst = u₀.ptr src) : SurvivesFrom u₀ dst src [] where
  completes := ⟨[], _, fun _ hl => absurd hl List.not_mem_nil, rfl, rfl⟩
  keeps _ hint := idle_along hint
  assigned ls s hint hrun _ := by
    rw [idle_run hint hrun]
    exact ⟨hdst.1, hsame, fun o ho => hheap.alive hdst.1 (hsame.trans ho), hheap.count⟩

theorem Running.survives_iff (hheap : Heap u₀)
    (hr : Running u₀ dst (k.after src) u₀ [.reset dst (k.after src)]) :
    SurvivesFrom u₀ dst src [.reset dst (k.after src)] ↔ Outside u₀ k dst src := by
  constructor
  · rintro ⟨⟨ls, s, hint, hrun, hend⟩, keeps, assigned⟩
    have hassigned := assigned ls s hint hrun hend
    obtain ⟨u₁, hlast, rfl⟩ := hr.run hint (keeps ls hint) hrun hend
    exact ⟨hlast.not_lost hheap hlast.dst_live,
      hlast.not_lost hheap (hlast.src_live (by simp [after_uses])), hlast.room hheap hassigned⟩
  · rintro ⟨htarget, hsource, hroom⟩
    have hsources : ∀ h ∈ (k.after src).uses, ¬ Lost u₀ dst h := by
      intro h hh
      rw [after_uses, List.mem_singleton] at hh
      exact hh ▸ hsource
    refine ⟨hr.completes htarget hsources _ le_rfl,
      fun ls hint => hr.keeps htarget hsources hint, fun ls s hint hrun hend => ?_⟩
    obtain ⟨u₁, hlast, rfl⟩ := hr.run hint (hr.keeps htarget hsources hint) hrun hend
    exact hlast.assigned hheap hroom

omit [DecidableEq Hdl] in
theorem same_of_not_resets (h : ¬ k.resets u₀ dst src) : u₀.ptr dst = u₀.ptr src := by
  by_contra hne
  have hself : dst ≠ src := fun heq => hne (heq ▸ rfl)
  cases k with
  | copy => exact h ⟨hself, hne⟩
  | move => exact h hself
  | convert => exact h hne

/-- An assignment survives the `Reset` of its own handle just when neither of its handles is a
field of an object that the `Reset` releases, and the count of the new object has room. -/
theorem survives_iff_outside (u : Shared Hdl Obj) (k : Assignment) (dst src : Hdl) (hheap : Heap u)
    (hdst : u.Usable dst) (hsrc : u.Usable src) :
    Survives u k dst src ↔ (k.resets u dst src → Outside u k dst src) := by
  have hact := call_assign (k := k) hdst hsrc
  by_cases hresets : k.resets u dst src
  · rw [if_pos hresets] at hact
    rw [survives_iff_from hact, (hheap.start hdst hsrc hresets).survives_iff hheap]
    exact ⟨fun houtside _ => houtside, fun houtside => houtside hresets⟩
  · rw [if_neg hresets] at hact
    rw [survives_iff_from hact]
    exact iff_of_true (hheap.survives_idle hdst (same_of_not_resets hresets))
      fun h => absurd h hresets

theorem heap_of_run (hnon : Along NonReentrant step (init : State Hdl Obj Unit) ls)
    (hsource : Along SourceOutside step (init : State Hdl Obj Unit) ls)
    (hroom : Along (fun s l => NoOverflow s.shared (s.thread l.1)) step
      (init : State Hdl Obj Unit) ls)
    (hrun : exec step init ls = some s) (hend : s.thread () = []) : Heap s.shared := by
  have hr : Reached s := Transition.exec_invariant_along
    (fun _ _ _ hr hok hs => hr.step hok.1 hok.2.1 hok.2.2 hs) init_reached
    (hnon.and (hsource.and hroom)) hrun
  have hsingle : s = single s.shared [] := by
    obtain ⟨u, thread⟩ := s
    have hthread : thread = fun _ => [] := funext fun _ => hend
    rw [single, hthread]
  rw [hsingle] at hr
  exact heap_of_reached hr

end Runs

section Lists

def twoNodes : List (Unit × Action ℕ Bool) :=
  [((), .call (.create 0 none false false)), ((), .call (.create 2 none true false)),
    ((), .call (.copy 1 (some false) 2)), ((), .go)]

def dropTail : List (Unit × Action ℕ Bool) :=
  [((), .call (.destroy 2)), ((), .go), ((), .go), ((), .go)]

theorem headToTail_survives : ∃ s : State ℕ Bool Unit, exec step init twoNodes = some s ∧
    s.shared.refCount false = 1 ∧ s.shared.refCount true = 2 ∧
    Survives s.shared .copy 0 2 := by
  have h : (exec step (init : State ℕ Bool Unit) twoNodes).map (fun s =>
      decide (s.thread () = [] ∧ s.shared.Usable 0 ∧ s.shared.Usable 2 ∧ s.shared.home 0 = none ∧
        s.shared.home 2 = none ∧ s.shared.live.card = 3 ∧ s.shared.refCount false = 1 ∧
        s.shared.refCount true = 2)) = some true := by decide
  obtain ⟨s, hrun, hs⟩ := Option.map_eq_some_iff.mp h
  obtain ⟨hend, hdst, hsrc, hhome, hhome', hcard, hcount, hcount'⟩ := of_decide_eq_true hs
  have hheap := heap_of_run (by decide) (by decide) (by decide) hrun hend
  refine ⟨s, hrun, hcount, hcount', ?_⟩
  refine (survives_iff_outside s.shared .copy 0 2 hheap hdst hsrc).mpr fun _ => ⟨?_, ?_, ?_⟩
  · rintro ⟨o, ho, -⟩
    rw [hhome] at ho
    cases ho
  · rintro ⟨o, ho, -⟩
    rw [hhome'] at ho
    cases ho
  · intro h _ o _
    have hle : (survivors s.shared 0 o).card ≤ s.shared.live.card :=
      Finset.card_le_card survivors_subset
    simp only [int32Max]
    omega

/-- `head = head->next`: the field is destroyed before the assignment reads it. -/
theorem headToNext_lost : ∃ s : State ℕ Bool Unit,
    exec step init (twoNodes ++ dropTail) = some s ∧ Heap s.shared ∧ s.shared.Usable 0 ∧
      s.shared.Usable 1 ∧ ¬ Survives s.shared .copy 0 1 := by
  have h : (exec step (init : State ℕ Bool Unit) (twoNodes ++ dropTail)).map (fun s =>
      decide (s.thread () = [] ∧ s.shared.Usable 0 ∧ s.shared.Usable 1 ∧
        ¬ Along KeepsUsed step (single s.shared []) [((), .call (.copyAssign 0 1)), ((), .go),
          ((), .go), ((), .go), ((), .field 1)])) = some true := by decide
  obtain ⟨s, hrun, hs⟩ := Option.map_eq_some_iff.mp h
  obtain ⟨hend, hdst, hsrc, hlost⟩ := of_decide_eq_true hs
  refine ⟨s, hrun, heap_of_run (by decide) (by decide) (by decide) hrun hend, hdst, hsrc,
    fun hsurvives => hlost (hsurvives.keeps _ ?_)⟩
  intro l hl op
  fin_cases hl <;> simp

end Lists

end Bugat.TSharedPtr
