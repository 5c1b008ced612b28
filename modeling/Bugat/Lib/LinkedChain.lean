import Mathlib

/-!
# Singly linked chains

`link` gives the successor of a node, `none` the end. `Chain link p as` says that
following the links from `p` visits exactly the nodes `as`, in this order, and ends.
A chain depends only on the links of its own nodes.
-/

namespace LinkedChain

variable {α : Type*}

def Chain (link : α → Option α) : Option α → List α → Prop
  | p, [] => p = none
  | p, a :: as => p = some a ∧ Chain link (link a) as

variable {link link' : α → Option α} {p : Option α} {a : α} {as bs : List α}

@[simp] theorem chain_nil : Chain link p [] ↔ p = none := Iff.rfl

@[simp] theorem chain_cons : Chain link p (a :: as) ↔ p = some a ∧ Chain link (link a) as :=
  Iff.rfl

theorem Chain.head_mem (h : Chain link (some a) as) : a ∈ as := by
  cases as with
  | nil => cases h
  | cons b as =>
    obtain rfl := Option.some.inj h.1
    exact List.mem_cons_self

theorem Chain.congr (h : Chain link p as) (heq : ∀ a ∈ as, link' a = link a) :
    Chain link' p as := by
  induction as generalizing p with
  | nil => exact h
  | cons a as ih =>
    refine ⟨h.1, ?_⟩
    rw [heq a List.mem_cons_self]
    exact ih h.2 fun b hb => heq b (List.mem_cons_of_mem a hb)

theorem Chain.unique (h : Chain link p as) (h' : Chain link p bs) : as = bs := by
  induction as generalizing p bs with
  | nil =>
    cases bs with
    | nil => rfl
    | cons b bs => exact absurd (h.symm.trans h'.1) nofun
  | cons a as ih =>
    cases bs with
    | nil => exact absurd (h'.symm.trans h.1) nofun
    | cons b bs =>
      obtain rfl := Option.some.inj (h.1.symm.trans h'.1)
      rw [ih h.2 h'.2]

theorem Chain.drop (h : Chain link p (bs ++ a :: as)) : Chain link (some a) (a :: as) := by
  induction bs generalizing p with
  | nil => exact ⟨rfl, h.2⟩
  | cons b bs ih => exact ih h.2

theorem Chain.nodup (h : Chain link p as) : as.Nodup := by
  induction as generalizing p with
  | nil => exact List.nodup_nil
  | cons a as ih =>
    refine List.nodup_cons.mpr ⟨fun hmem => ?_, ih h.2⟩
    obtain ⟨xs, ys, rfl⟩ := List.append_of_mem hmem
    have hsame := (h.2.drop.2).unique h.2
    have hlen := congrArg List.length hsame
    simp only [List.length_append, List.length_cons] at hlen
    omega

theorem Chain.head_eq_none (h : Chain link p as) : p = none ↔ as = [] := by
  cases as with
  | nil => simpa using h
  | cons a as => simp [h.1]

theorem Chain.snoc (h : Chain link p as) (hne : as ≠ []) (hlink : link' (as.getLast hne) = some a)
    (hend : link' a = none) (heq : ∀ b ∈ as, b ≠ as.getLast hne → link' b = link b) :
    Chain link' p (as ++ [a]) := by
  induction as generalizing p with
  | nil => exact absurd rfl hne
  | cons b as ih =>
    refine ⟨h.1, ?_⟩
    cases as with
    | nil => exact ⟨hlink, hend⟩
    | cons c as =>
      have hb : b ≠ (b :: c :: as).getLast hne := by
        intro heq'
        have hnd := h.nodup
        rw [List.getLast_cons (List.cons_ne_nil c as)] at heq'
        exact (List.nodup_cons.mp hnd).1 (heq' ▸ List.getLast_mem (List.cons_ne_nil c as))
      rw [heq b List.mem_cons_self hb]
      refine ih h.2 (List.cons_ne_nil c as) hlink fun d hd hlast => ?_
      exact heq d (List.mem_cons_of_mem b hd) hlast

/-- When the nodes from position `n` on are linked in their order, those are the nodes that
following the links from the one at `n` reaches. -/
theorem reaches_iff {n : ℕ} {b : α} (hn : as[n]? = some a)
    (hlink : ∀ k c, n ≤ k → as[k]? = some c → link c = as[k + 1]?) :
    Relation.ReflTransGen (fun c d => link c = some d) a b ↔ ∃ k, n ≤ k ∧ as[k]? = some b := by
  constructor
  · intro h
    induction h with
    | refl => exact ⟨n, le_rfl, hn⟩
    | tail _ hstep ih =>
      obtain ⟨k, hk, hc⟩ := ih
      exact ⟨k + 1, Nat.le_succ_of_le hk, (hlink k _ hk hc).symm.trans hstep⟩
  · rintro ⟨k, hk, hb⟩
    induction k, hk using Nat.le_induction generalizing b with
    | base =>
      obtain rfl := Option.some.inj (hn.symm.trans hb)
      exact .refl
    | succ k hk ih =>
      obtain ⟨hlt, -⟩ := List.getElem?_eq_some_iff.mp hb
      obtain ⟨c, hc⟩ : ∃ c, as[k]? = some c :=
        ⟨_, List.getElem?_eq_getElem (Nat.lt_of_succ_lt hlt)⟩
      exact (ih hc).tail ((hlink k _ hk hc).trans hb)

def walkLast (link : α → Option α) : ℕ → α → Option α
  | 0, _ => none
  | fuel + 1, a =>
    match link a with
    | none => some a
    | some b => walkLast link fuel b

theorem walkLast_eq (h : Chain link (some a) as) (hne : as ≠ []) {fuel : ℕ}
    (hfuel : as.length ≤ fuel) : walkLast link fuel a = some (as.getLast hne) := by
  induction fuel generalizing a as with
  | zero => exact absurd (List.length_eq_zero_iff.mp (Nat.le_zero.mp hfuel)) hne
  | succ fuel ih =>
    cases as with
    | nil => exact absurd rfl hne
    | cons b as =>
      obtain ⟨hab, hrest⟩ := h
      obtain rfl := Option.some.inj hab
      cases as with
      | nil => simp [walkLast, chain_nil.mp hrest]
      | cons c as =>
        have hac := hrest.1
        rw [hac] at hrest
        rw [walkLast, hac, List.getLast_cons (List.cons_ne_nil c as)]
        exact ih hrest (List.cons_ne_nil c as) (Nat.le_of_succ_le_succ hfuel)

/-- The nodes met when following the links for at most the given number of steps. -/
def follow (link : α → Option α) : ℕ → Option α → List α
  | 0, _ => []
  | _ + 1, none => []
  | fuel + 1, some a => a :: follow link fuel (link a)

theorem follow_eq (h : Chain link p as) {fuel : ℕ} (hfuel : as.length ≤ fuel) :
    follow link fuel p = as := by
  induction fuel generalizing p as with
  | zero =>
    rw [List.length_eq_zero_iff.mp (Nat.le_zero.mp hfuel)]
    rfl
  | succ fuel ih =>
    cases as with
    | nil =>
      rw [chain_nil.mp h]
      rfl
    | cons a as =>
      rw [h.1, follow, ih h.2 (Nat.le_of_succ_le_succ hfuel)]

end LinkedChain
