import Mathlib
import Bugat.Lib.MachineInt
import Bugat.Lib.Transition

/-!
# Event: handlers that change the vector they are called from

`Invoke` is a range-for over the live vector of the handlers: it keeps a position and an end,
both fixed to the buffer that the vector had on entry. Between two of its steps the handler that
it has called does anything with the event, and may invoke it again. A handler is known by its
id here. A read outside the vector and an overflow of `_nextId` are faults.
-/

namespace Bugat

open MachineInt (int32Max wrap32 wrap32_of_mem)
open Transition (exec Along Throughout throughout_iff_along_of_iff)

/-- An `Invoke` in progress: the buffer and the two positions of its range-for, whether it is
inside a handler, the ids that were subscribed when it started, those unsubscribed since then,
and those that it has called. -/
structure Event.Frame where
  buf : ℕ
  cursor : ℕ
  stop : ℕ
  inHandler : Bool
  start : List ℤ
  removed : List ℤ
  called : List ℤ
  deriving DecidableEq, Repr

/-- `buf` and `capacity` belong to the vector. The innermost `Invoke` is the first of `frames`.
`issued` lists what `Subscribe` has returned, `dropped` the ids of the erased handlers, and
`finished` the calls of `Invoke` that have returned. -/
structure Event where
  nextId : ℤ
  handlers : List ℤ
  buf : ℕ
  capacity : ℕ
  frames : List Event.Frame
  issued : List ℤ
  dropped : List ℤ
  finished : List Event.Frame
  fault : Bool

namespace Event

def init : Event := ⟨0, [], 0, 0, [], [], [], [], false⟩

inductive Label
  | subscribe (capacity : ℕ)
  | unsubscribe (id : ℤ)
  | invoke
  | next
  | handlerReturns
  deriving DecidableEq, Repr

def Free (s : Event) : Prop := ∀ f ∈ s.frames.head?, f.inHandler = true

instance (s : Event) : Decidable s.Free := inferInstanceAs (Decidable (∀ _ ∈ s.frames.head?, _))

def emplaceBack (s : Event) (id : ℤ) (capacity : ℕ) : Event :=
  if s.handlers.length < s.capacity then { s with handlers := s.handlers ++ [id] }
  else { s with handlers := s.handlers ++ [id], buf := s.buf + 1, capacity := capacity }

def subscribe (s : Event) (capacity : ℕ) : Event :=
  let id := wrap32 (s.nextId + 1)
  let s := { s with nextId := id, fault := s.fault || s.nextId = int32Max }
  { s.emplaceBack id capacity with issued := s.issued ++ [id] }

/-- The loop of `Unsubscribe` erases the first entry with the id. -/
def unsubscribe (s : Event) (id : ℤ) : Event :=
  if id ∈ s.handlers then
    { s with
      handlers := s.handlers.erase id
      dropped := s.dropped ++ [id]
      frames := s.frames.map fun f => { f with removed := f.removed ++ [id] } }
  else s

def invoke (s : Event) : Event :=
  { s with frames := ⟨s.buf, 0, s.handlers.length, false, s.handlers, [], []⟩ :: s.frames }

def entry (s : Event) (buf pos : ℕ) : Option ℤ := if buf = s.buf then s.handlers[pos]? else none

/-- The test of the range-for, and the call of the handler at the cursor. -/
def next (s : Event) (f : Frame) (rest : List Frame) : Event :=
  if f.cursor = f.stop then { s with frames := rest, finished := s.finished ++ [f] }
  else
    match s.entry f.buf f.cursor with
    | some id =>
      { s with frames := { f with inHandler := true, called := f.called ++ [id] } :: rest }
    | none => { s with fault := true }

def step (s : Event) : Label → Option Event
  | .subscribe capacity =>
    if s.Free ∧ s.handlers.length < capacity then some (s.subscribe capacity) else none
  | .unsubscribe id => if s.Free then some (s.unsubscribe id) else none
  | .invoke => if s.Free then some s.invoke else none
  | .next =>
    match s.frames with
    | f :: rest => if f.inHandler = false then some (s.next f rest) else none
    | [] => none
  | .handlerReturns =>
    match s.frames with
    | f :: rest =>
      if f.inHandler = true then
        some { s with frames := { f with inHandler := false, cursor := f.cursor + 1 } :: rest }
      else none
    | [] => none

/-- The handlers that were subscribed at the start and not unsubscribed meanwhile have been
called once, in the order of their subscription, and no others. -/
structure Dispatched (f : Frame) : Prop where
  in_order : f.called.Sublist f.start
  once : ∀ id ∈ f.start, id ∉ f.removed → f.called.count id = 1

structure Robust (s : Event) : Prop where
  inside : s.fault = false
  dispatched : ∀ f ∈ s.finished, Dispatched f
  ids : s.issued.Nodup
  subscriptions : s.handlers = s.issued.filter fun id => id ∉ s.dropped

/-- While an `Invoke` has more handlers to call, `Subscribe` does not make the vector grow, and
`Unsubscribe` erases none of the entries up to its end. -/
def Undisturbed (s : Event) : Label → Prop
  | .subscribe _ => s.nextId < int32Max ∧
      (s.handlers.length < s.capacity ∨ ∀ f ∈ s.frames, f.stop ≤ f.cursor + 1)
  | .unsubscribe id => id ∈ s.handlers →
      ∀ f ∈ s.frames, f.stop ≤ f.cursor + 1 ∨ f.stop ≤ s.handlers.idxOf id
  | _ => True

instance (s : Event) : (l : Label) → Decidable (s.Undisturbed l)
  | .subscribe _ => inferInstanceAs (Decidable (_ ∧ _))
  | .unsubscribe _ => inferInstanceAs (Decidable (_ → _))
  | .invoke | .next | .handlerReturns => isTrue trivial

namespace Frame

def pos (f : Frame) : ℕ := if f.inHandler then f.cursor + 1 else f.cursor

/-- The handlers that are still to be called. -/
def left (f : Frame) : List ℤ := f.start.filter fun id => id ∉ f.removed ∧ id ∉ f.called

end Frame

structure Tracked (s : Event) (f : Frame) : Prop where
  bound : f.pos ≤ f.stop
  live : f.pos < f.stop → f.buf = s.buf ∧ f.stop ≤ s.handlers.length
  unread : (s.handlers.take f.stop).drop f.pos = f.left
  in_order : (f.called ++ f.left).Sublist f.start
  nodup : f.start.Nodup

structure Inv (s : Event) : Prop where
  robust : Robust s
  tracked : ∀ f ∈ s.frames, Tracked s f
  inner : ∀ f ∈ s.frames.tail, f.inHandler = true
  issued_le : ∀ id ∈ s.issued, id ≤ s.nextId
  dropped_issued : ∀ id ∈ s.dropped, id ∈ s.issued
  nextId : 0 ≤ s.nextId ∧ s.nextId ≤ int32Max

variable {s s' : Event} {l : Label} {f : Frame} {id : ℤ} {rest : List Frame}

theorem unread_eq_nil {handlers : List ℤ} {stop pos : ℕ} (h : stop ≤ pos) :
    (handlers.take stop).drop pos = [] :=
  List.drop_eq_nil_of_le ((List.length_take_le stop handlers).trans h)

theorem Tracked.left_eq_nil (h : Tracked s f) (hdone : f.stop ≤ f.pos) : f.left = [] :=
  h.unread.symm.trans (unread_eq_nil hdone)

theorem Tracked.of_done (h : Tracked s f) (hdone : f.stop ≤ f.pos) : Tracked s' f where
  bound := h.bound
  live hlt := absurd hlt (not_lt.mpr hdone)
  unread := (unread_eq_nil hdone).trans (h.left_eq_nil hdone).symm
  in_order := h.in_order
  nodup := h.nodup

theorem Tracked.of_take (h : Tracked s f) (hbuf : s'.buf = s.buf)
    (hlen : f.stop ≤ s'.handlers.length)
    (htake : s'.handlers.take f.stop = s.handlers.take f.stop) : Tracked s' f where
  bound := h.bound
  live hlt := ⟨(h.live hlt).1.trans hbuf.symm, hlen⟩
  unread := by rw [htake, h.unread]
  in_order := h.in_order
  nodup := h.nodup

theorem Inv.all_inHandler (h : Inv s) (hfree : s.Free) : ∀ f ∈ s.frames, f.inHandler = true := by
  intro f hf
  cases hframes : s.frames with
  | nil =>
    rw [hframes] at hf
    cases hf
  | cons g rest =>
    have hinner := h.inner
    rw [hframes] at hf hinner
    rcases List.mem_cons.mp hf with rfl | hf
    · exact hfree _ (by rw [hframes]; rfl)
    · exact hinner f hf

theorem pos_of_inHandler (hin : f.inHandler = true) : f.pos = f.cursor + 1 := by
  rw [Frame.pos, hin, if_pos rfl]

theorem pos_of_test (hin : f.inHandler = false) : f.pos = f.cursor := by
  rw [Frame.pos, hin]
  rfl

theorem Inv.handlers_nodup (h : Inv s) : s.handlers.Nodup := by
  rw [h.robust.subscriptions]
  exact h.robust.ids.filter _

theorem init_inv : Inv init where
  robust := ⟨rfl, nofun, List.nodup_nil, rfl⟩
  tracked := nofun
  inner := nofun
  issued_le := nofun
  dropped_issued := nofun
  nextId := by decide

theorem Inv.emplaceBack_tracked (h : Inv s) (hfree : s.Free) {capacity : ℕ}
    (hroom : s.handlers.length < s.capacity ∨ ∀ f ∈ s.frames, f.stop ≤ f.cursor + 1) :
    ∀ f ∈ s.frames, Tracked (s.emplaceBack id capacity) f := by
  intro f hf
  have htracked := h.tracked f hf
  have hpos := pos_of_inHandler (h.all_inHandler hfree f hf)
  by_cases hdone : f.stop ≤ f.pos
  · exact htracked.of_done hdone
  · have hcap : s.handlers.length < s.capacity := by
      rcases hroom with hcap | hall
      · exact hcap
      · have hend := hall f hf
        omega
    obtain ⟨-, hstop⟩ := htracked.live (not_le.mp hdone)
    rw [emplaceBack, if_pos hcap]
    refine htracked.of_take rfl ?_ (List.take_append_of_le_length hstop)
    rw [List.length_append]
    omega

theorem emplaceBack_handlers (s : Event) (id : ℤ) (capacity : ℕ) :
    (s.emplaceBack id capacity).handlers = s.handlers ++ [id] := by
  rw [emplaceBack]
  split <;> rfl

theorem subscribe_eq (s : Event) (capacity : ℕ) : s.subscribe capacity =
    { s with
      nextId := wrap32 (s.nextId + 1)
      handlers := s.handlers ++ [wrap32 (s.nextId + 1)]
      buf := (s.emplaceBack (wrap32 (s.nextId + 1)) capacity).buf
      capacity := (s.emplaceBack (wrap32 (s.nextId + 1)) capacity).capacity
      issued := s.issued ++ [wrap32 (s.nextId + 1)]
      fault := s.fault || s.nextId = int32Max } := by
  simp only [subscribe, emplaceBack]
  split <;> rfl

theorem Tracked.congr (h : Tracked s f) (hbuf : s'.buf = s.buf)
    (hhandlers : s'.handlers = s.handlers) : Tracked s' f where
  bound := h.bound
  live hlt := by
    rw [hbuf, hhandlers]
    exact h.live hlt
  unread := by rw [hhandlers, h.unread]
  in_order := h.in_order
  nodup := h.nodup

theorem Inv.subscribe (h : Inv s) (hfree : s.Free) {capacity : ℕ}
    (hok : s.Undisturbed (.subscribe capacity)) : Inv (s.subscribe capacity) := by
  obtain ⟨hmax, hroom⟩ := hok
  obtain ⟨hlo, hhi⟩ := h.nextId
  have hid : wrap32 (s.nextId + 1) = s.nextId + 1 := wrap32_of_mem (by omega) (by omega)
  have htracked : ∀ f ∈ s.frames, Tracked (s.emplaceBack (s.nextId + 1) capacity) f :=
    h.emplaceBack_tracked hfree hroom
  have hhandlers := emplaceBack_handlers s (s.nextId + 1) capacity
  rw [subscribe_eq, hid]
  have hnew : s.nextId + 1 ∉ s.issued := fun hmem => by
    have hle := h.issued_le _ hmem
    omega
  refine ⟨⟨?_, h.robust.dispatched, ?_, ?_⟩, fun f hf => (htracked f hf).congr rfl hhandlers.symm,
    h.inner, fun i hi => ?_, fun i hi => List.mem_append_left _ (h.dropped_issued i hi), ?_⟩
  · simp [h.robust.inside, hmax.ne]
  · exact List.nodup_append.mpr ⟨h.robust.ids, List.nodup_singleton _,
      fun i hi j hj heq => hnew (by rwa [← List.mem_singleton.mp hj, ← heq])⟩
  · have hkeep : s.nextId + 1 ∉ s.dropped := fun hmem => hnew (h.dropped_issued _ hmem)
    dsimp only
    rw [List.filter_append, ← h.robust.subscriptions]
    simp [hkeep]
  · rcases List.mem_append.mp hi with hi | hi
    · exact (h.issued_le i hi).trans (by dsimp only; omega)
    · exact (List.mem_singleton.mp hi).le
  · dsimp only
    omega

theorem left_unsubscribe (f : Frame) (id : ℤ) :
    Frame.left { f with removed := f.removed ++ [id] } = f.left.filter (· ≠ id) := by
  simp only [Frame.left, List.filter_filter]
  refine List.filter_congr fun i _ => ?_
  rw [Bool.eq_iff_iff]
  simp
  tauto

theorem Tracked.unsubscribe (h : Tracked s f) (hmem : id ∈ s.handlers)
    (hok : f.stop ≤ f.pos ∨ f.stop ≤ s.handlers.idxOf id) :
    Tracked (s.unsubscribe id) { f with removed := f.removed ++ [id] } := by
  have hleft := left_unsubscribe f id
  have horder : (f.called ++ f.left.filter (· ≠ id)).Sublist f.start :=
    (List.filter_sublist.append_left f.called).trans h.in_order
  rcases hok with hdone | hbehind
  · rw [h.left_eq_nil hdone, List.filter_nil] at hleft
    refine ⟨h.bound, fun hlt => absurd hlt (not_lt.mpr hdone), ?_, ?_, h.nodup⟩
    · exact (unread_eq_nil hdone).trans hleft.symm
    · rw [hleft, List.append_nil]
      exact (List.sublist_append_left _ _).trans h.in_order
  · have hhandlers : (s.unsubscribe id).handlers = s.handlers.eraseIdx (s.handlers.idxOf id) := by
      rw [Event.unsubscribe, if_pos hmem]
      exact List.erase_eq_eraseIdx_of_idxOf rfl
    have hidx := List.idxOf_lt_length_of_mem hmem
    have htake : (s.unsubscribe id).handlers.take f.stop = s.handlers.take f.stop := by
      rw [hhandlers]
      exact List.take_eraseIdx_eq_take_of_le _ _ _ hbehind
    have hkeep : f.left.filter (· ≠ id) = f.left := by
      refine List.filter_eq_self.mpr fun i hi => ?_
      rw [← h.unread] at hi
      have htaken := List.mem_of_mem_drop hi
      have hne : i ≠ id := by
        rintro rfl
        exact absurd ((List.mem_take_iff_idxOf_lt hmem).mp htaken) (not_lt.mpr hbehind)
      simpa using hne
    refine ⟨h.bound, fun hlt => ⟨?_, ?_⟩, ?_, ?_, h.nodup⟩
    · rw [Event.unsubscribe, if_pos hmem]
      exact (h.live hlt).1
    · rw [hhandlers, List.length_eraseIdx_of_lt hidx]
      dsimp only
      omega
    · rw [hleft, hkeep]
      change ((s.unsubscribe id).handlers.take f.stop).drop f.pos = f.left
      rw [htake, h.unread]
    · rw [hleft]
      exact horder

theorem Inv.unsubscribe (h : Inv s) (hfree : s.Free) (hok : s.Undisturbed (.unsubscribe id)) :
    Inv (s.unsubscribe id) := by
  by_cases hmem : id ∈ s.handlers
  · have hframes : ∀ f ∈ s.frames,
        Tracked (s.unsubscribe id) { f with removed := f.removed ++ [id] } := by
      intro f hf
      have hpos := pos_of_inHandler (h.all_inHandler hfree f hf)
      exact (h.tracked f hf).unsubscribe hmem (by rw [hpos]; exact hok hmem f hf)
    have hsub := h.robust.subscriptions
    have hissued : id ∈ s.issued := by
      rw [hsub] at hmem
      exact List.mem_of_mem_filter hmem
    rw [Event.unsubscribe, if_pos hmem] at hframes ⊢
    refine ⟨⟨h.robust.inside, h.robust.dispatched, h.robust.ids, ?_⟩, fun f hf => ?_,
      fun f hf => ?_, h.issued_le, fun i hi => ?_, h.nextId⟩
    · dsimp only
      rw [h.handlers_nodup.erase_eq_filter, hsub, List.filter_filter]
      refine List.filter_congr fun i _ => ?_
      rw [Bool.eq_iff_iff]
      simp
      tauto
    · obtain ⟨g, hg, rfl⟩ := List.mem_map.mp hf
      exact hframes g hg
    · dsimp only at hf
      rw [← List.map_tail] at hf
      obtain ⟨g, hg, rfl⟩ := List.mem_map.mp hf
      exact h.inner g hg
    · rcases List.mem_append.mp hi with hi | hi
      · exact h.dropped_issued i hi
      · rw [List.mem_singleton.mp hi]
        exact hissued
  · rwa [Event.unsubscribe, if_neg hmem]

theorem Inv.invoke (h : Inv s) (hfree : s.Free) : Inv s.invoke := by
  refine ⟨⟨h.robust.inside, h.robust.dispatched, h.robust.ids, h.robust.subscriptions⟩,
    fun f hf => ?_, h.all_inHandler hfree, h.issued_le, h.dropped_issued, h.nextId⟩
  rcases List.mem_cons.mp hf with rfl | hf
  · refine ⟨Nat.zero_le _, fun _ => ⟨rfl, le_rfl⟩, ?_, ?_, h.handlers_nodup⟩
    · simp [Frame.left, Frame.pos, Event.invoke]
    · simp [Frame.left]
  · exact (h.tracked f hf).congr rfl rfl

theorem Tracked.dispatched (h : Tracked s f) (hdone : f.stop ≤ f.pos) : Dispatched f := by
  have hnil := h.left_eq_nil hdone
  have horder := h.in_order
  rw [hnil, List.append_nil] at horder
  refine ⟨horder, fun id hstart hremoved => ?_⟩
  refine List.count_eq_one_of_mem (h.nodup.sublist horder) ?_
  by_contra hcalled
  have hmem : id ∈ f.left := by simp [Frame.left, hstart, hremoved, hcalled]
  rw [hnil] at hmem
  cases hmem

theorem Tracked.call (h : Tracked s f) (hin : f.inHandler = false)
    (hlt : f.cursor < f.stop) : ∃ id, s.entry f.buf f.cursor = some id ∧
      Tracked s { f with inHandler := true, called := f.called ++ [id] } := by
  have hpos := pos_of_test hin
  obtain ⟨hbuf, hlen⟩ := h.live (hpos ▸ hlt)
  have hcursor : f.cursor < s.handlers.length := by omega
  have hunread := h.unread
  rw [hpos] at hunread
  have hcons : f.left = s.handlers[f.cursor] :: (s.handlers.take f.stop).drop (f.cursor + 1) := by
    rw [← hunread, List.drop_eq_getElem_cons (by rw [List.length_take]; omega), List.getElem_take]
  have hnodup : f.left.Nodup := h.nodup.filter _
  refine ⟨s.handlers[f.cursor], ?_, ?_⟩
  · rw [entry, if_pos hbuf, List.getElem?_eq_getElem hcursor]
  · have hleft : Frame.left
        { f with inHandler := true, called := f.called ++ [s.handlers[f.cursor]] } =
          (s.handlers.take f.stop).drop (f.cursor + 1) := by
      have hfilter : Frame.left
          { f with inHandler := true, called := f.called ++ [s.handlers[f.cursor]] } =
            f.left.filter (· ≠ s.handlers[f.cursor]) := by
        simp only [Frame.left, List.filter_filter]
        refine List.filter_congr fun i _ => ?_
        rw [Bool.eq_iff_iff]
        simp
        tauto
      rw [hfilter, hcons]
      rw [hcons] at hnodup
      have hnot := (List.nodup_cons.mp hnodup).1
      rw [List.filter_cons_of_neg (by simp), List.filter_eq_self.mpr]
      intro i hi
      have hne : i ≠ s.handlers[f.cursor] := ne_of_mem_of_not_mem hi hnot
      simpa using hne
    refine ⟨hlt, fun _ => ⟨hbuf, hlen⟩, hleft.symm, ?_, h.nodup⟩
    have horder := h.in_order
    rw [hcons] at horder
    rw [hleft, List.append_assoc]
    exact horder

theorem Inv.next (h : Inv s) (hframes : s.frames = f :: rest) (hin : f.inHandler = false) :
    Inv (s.next f rest) := by
  have htracked := h.tracked f (by simp [hframes])
  have hinner := h.inner
  rw [hframes, List.tail_cons] at hinner
  have hrest : ∀ g ∈ rest, Tracked s g := fun g hg => h.tracked g (by simp [hframes, hg])
  rw [Event.next]
  split
  · rename_i hend
    have hdispatched := htracked.dispatched (by rw [pos_of_test hin, hend])
    refine ⟨⟨h.robust.inside, fun g hg => ?_, h.robust.ids, h.robust.subscriptions⟩,
      fun g hg => (hrest g hg).congr rfl rfl, fun g hg => hinner g (List.mem_of_mem_tail hg),
      h.issued_le, h.dropped_issued, h.nextId⟩
    rcases List.mem_append.mp hg with hg | hg
    · exact h.robust.dispatched g hg
    · rw [List.mem_singleton.mp hg]
      exact hdispatched
  · rename_i hend
    have hbound := htracked.bound
    rw [pos_of_test hin] at hbound
    obtain ⟨id, hentry, hcall⟩ := htracked.call hin (lt_of_le_of_ne hbound hend)
    rw [hentry]
    refine ⟨⟨h.robust.inside, h.robust.dispatched, h.robust.ids, h.robust.subscriptions⟩,
      fun g hg => ?_, hinner, h.issued_le, h.dropped_issued, h.nextId⟩
    rcases List.mem_cons.mp hg with rfl | hg
    · exact hcall.congr rfl rfl
    · exact (hrest g hg).congr rfl rfl

theorem Inv.handlerReturns (h : Inv s) (hframes : s.frames = f :: rest)
    (hin : f.inHandler = true) :
    Inv { s with frames := { f with inHandler := false, cursor := f.cursor + 1 } :: rest } := by
  have htracked := h.tracked f (by simp [hframes])
  have hinner := h.inner
  rw [hframes, List.tail_cons] at hinner
  refine ⟨⟨h.robust.inside, h.robust.dispatched, h.robust.ids, h.robust.subscriptions⟩,
    fun g hg => ?_, hinner, h.issued_le, h.dropped_issued, h.nextId⟩
  have hpos := pos_of_inHandler hin
  rcases List.mem_cons.mp hg with rfl | hg
  · refine ⟨?_, fun hlt => ?_, ?_, htracked.in_order, htracked.nodup⟩
    · exact hpos ▸ htracked.bound
    · exact htracked.live (hpos ▸ hlt)
    · have hunread := htracked.unread
      rw [hpos] at hunread
      exact hunread
  · exact (h.tracked g (by simp [hframes, hg])).congr rfl rfl

/-- When an entry before the end is erased, the range-for skips a handler or reads one too
many. -/
theorem Tracked.disturbed (h : Tracked s f) (hnodup : s.handlers.Nodup) (hmem : id ∈ s.handlers)
    (hlt : f.pos < f.stop) (hidx : s.handlers.idxOf id < f.stop) :
    ¬ Tracked (s.unsubscribe id) { f with removed := f.removed ++ [id] } := by
  intro hafter
  have hhandlers : (s.unsubscribe id).handlers = s.handlers.eraseIdx (s.handlers.idxOf id) := by
    rw [Event.unsubscribe, if_pos hmem]
    exact List.erase_eq_eraseIdx_of_idxOf rfl
  have hlen := List.idxOf_lt_length_of_mem hmem
  have hstop : f.stop ≤ (s.unsubscribe id).handlers.length := (hafter.live hlt).2
  have hunread : ((s.unsubscribe id).handlers.take f.stop).drop f.pos = f.left.filter (· ≠ id) :=
    hafter.unread.trans (left_unsubscribe f id)
  have hleft := h.unread
  have hall : f.left.filter (· ≠ id) = f.left := by
    refine List.filter_sublist.eq_of_length ?_
    have hlive := (h.live hlt).2
    rw [← hunread, ← hleft, List.length_drop, List.length_drop, List.length_take,
      List.length_take, min_eq_left hstop, min_eq_left hlive]
  rw [hall, ← hleft, hhandlers] at hunread
  rw [hhandlers, List.length_eraseIdx_of_lt hlen] at hstop
  -- both lists start at the cursor, so the erased entry is not behind it
  have hbefore : s.handlers.idxOf id < f.pos := by
    by_contra hge
    have htaken : id ∈ f.left := by
      rw [← hleft]
      refine List.mem_iff_getElem.mpr ⟨s.handlers.idxOf id - f.pos, ?_, ?_⟩
      · rw [List.length_drop, List.length_take]
        omega
      · simp [Nat.add_sub_cancel' (not_lt.mp hge)]
    rw [← hall] at htaken
    simpa using (List.mem_filter.mp htaken).2
  have hget := congrArg (·[0]?) hunread
  simp only [List.getElem?_drop, Nat.add_zero, List.getElem?_take_of_lt hlt,
    List.getElem?_eraseIdx_of_ge hbefore.le] at hget
  have heq := (List.getElem?_inj (by omega) hnodup).mp hget
  omega

theorem Inv.step (h : Inv s) (hok : s.Undisturbed l) (hs : step s l = some s') : Inv s' := by
  cases l with
  | subscribe capacity =>
    simp only [Event.step] at hs
    split_ifs at hs with hfree
    obtain rfl := Option.some.inj hs
    exact h.subscribe hfree.1 hok
  | unsubscribe id =>
    simp only [Event.step] at hs
    split_ifs at hs with hfree
    obtain rfl := Option.some.inj hs
    exact h.unsubscribe hfree hok
  | invoke =>
    simp only [Event.step] at hs
    split_ifs at hs with hfree
    obtain rfl := Option.some.inj hs
    exact h.invoke hfree
  | next =>
    simp only [Event.step] at hs
    split at hs
    · rename_i f rest hframes
      split_ifs at hs with hin
      obtain rfl := Option.some.inj hs
      exact h.next hframes hin
    · cases hs
  | handlerReturns =>
    simp only [Event.step] at hs
    split at hs
    · rename_i f rest hframes
      split_ifs at hs with hin
      obtain rfl := Option.some.inj hs
      exact h.handlerReturns hframes hin
    · cases hs

theorem Inv.undisturbed (h : Inv s) (hs : Event.step s l = some s') (hafter : Inv s') :
    s.Undisturbed l := by
  cases l with
  | subscribe capacity =>
    simp only [Event.step] at hs
    split_ifs at hs with hfree
    obtain rfl := Option.some.inj hs
    have hfault := hafter.robust.inside
    have htracked := hafter.tracked
    rw [subscribe_eq] at hfault htracked
    refine ⟨lt_of_le_of_ne h.nextId.2 fun heq => ?_, or_iff_not_imp_left.mpr fun hfull f hf => ?_⟩
    · simp [heq] at hfault
    · have hpos := pos_of_inHandler (h.all_inHandler hfree.1 f hf)
      by_contra hlt
      have hbefore := ((h.tracked f hf).live (by omega)).1
      have hbuf := ((htracked f hf).live (by omega)).1
      rw [emplaceBack, if_neg hfull] at hbuf
      dsimp only at hbuf
      omega
  | unsubscribe id =>
    simp only [Event.step] at hs
    split_ifs at hs with hfree
    obtain rfl := Option.some.inj hs
    intro hmem f hf
    have hpos := pos_of_inHandler (h.all_inHandler hfree f hf)
    by_contra hbad
    rw [not_or, not_le, not_le] at hbad
    refine (h.tracked f hf).disturbed h.handlers_nodup hmem (by omega) hbad.2 ?_
    refine hafter.tracked _ ?_
    rw [Event.unsubscribe, if_pos hmem]
    exact List.mem_map_of_mem hf
  | invoke => trivial
  | next => trivial
  | handlerReturns => trivial

/-- The condition is exact for what is still to come: in every state of a run each `Invoke` in
progress is going to read the handlers that it has to call, just when none was disturbed. -/
theorem inv_iff_undisturbed (ls : List Label) :
    Throughout Inv step init ls ↔ Along Undisturbed step init ls := by
  refine throughout_iff_along_of_iff (fun s l t h hs => ?_) init_inv
  constructor
  · exact h.undisturbed hs
  · intro hok
    exact h.step hok hs

/-- In a run whose handlers disturb no `Invoke` in progress the dispatch is right. -/
theorem robust_of_undisturbed {ls : List Label} (h : Along Undisturbed step init ls) :
    Throughout Robust step init ls :=
  ((inv_iff_undisturbed ls).mpr h).mono fun _ h => h.robust

def growAtEnd : List Label :=
  [.subscribe 2, .subscribe 2, .invoke, .next, .handlerReturns, .next, .subscribe 4,
    .unsubscribe 2, .handlerReturns, .next]

theorem growAtEnd_robust : Throughout Robust step init growAtEnd ∧
    (exec step init growAtEnd).map (fun s => s.finished.map Frame.called) = some [[1, 2]] :=
  ⟨robust_of_undisturbed (by decide), by decide⟩

def unsubscribeSelf : List Label :=
  [.subscribe 4, .subscribe 4, .subscribe 4, .invoke, .next, .unsubscribe 1, .handlerReturns,
    .next, .handlerReturns, .next]

theorem unsubscribeSelf_skips : ∃ s, exec step init unsubscribeSelf = some s ∧
    s.fault = true ∧ s.handlers = [2, 3] ∧
    s.frames.map (fun f => (f.start, f.removed, f.called)) = [([1, 2, 3], [1], [1, 3])] ∧
    ¬ Throughout Robust step init unsubscribeSelf := by
  refine ⟨_, rfl, by decide, by decide, by decide, fun h => ?_⟩
  have hfault := (h.last rfl).inside
  exact absurd hfault (by decide)

end Event

end Bugat
