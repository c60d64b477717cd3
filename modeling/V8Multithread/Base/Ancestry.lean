import Mathlib

/-! Forests whose nodes are compared by a key.

A node has at most one parent. Nodes of one key stand for the same thing, and so do their parents
(`Forest.key_parent`). An ancestor is looked for by its key, going up from a node. -/
namespace V8Multithread.Base.Ancestry
open Option

/-- The nodes that matter are `good`; the depth is the number of steps to a root. -/
structure Forest (α κ : Type*) where
  parent : α → Option α
  key : α → κ
  depth : α → Nat
  good : α → Prop
  good_parent : ∀ a b, good a → parent a = some b → good b
  key_parent : ∀ a b, good a → good b → key a = key b → (parent a).map key = (parent b).map key
  depth_root : ∀ a, good a → parent a = none → depth a = 0
  depth_parent : ∀ a b, good a → parent a = some b → depth a = depth b + 1

variable {α κ : Type*} {F : Forest α κ} {a b c : α}

/-- `b`, or a node of its key, is met on the way up from `a`. -/
inductive Forest.Below (F : Forest α κ) : α → α → Prop
  | here {a b : α} (h : F.key a = F.key b) : F.Below a b
  | up {a a' b : α} (hparent : F.parent a = some a') (h : F.Below a' b) : F.Below a b

namespace Forest.Below

theorem refl (F : Forest α κ) (a : α) : F.Below a a := .here rfl

section
variable (ha : F.good a) (hb : F.good b)
include ha hb

/-- Parents of nodes of one key. -/
theorem exists_parent (hkey : F.key a = F.key b) (hparent : F.parent b = some c) :
    ∃ c', F.parent a = some c' ∧ F.key c' = F.key c := by
  have h := F.key_parent a b ha hb hkey
  rw [hparent] at h
  exact map_eq_some_iff.mp h

theorem congr_left (hkey : F.key a = F.key b) (h : F.Below b c) : F.Below a c := by
  induction h generalizing a with
  | here h => exact .here (hkey.trans h)
  | up hparent _ ih =>
    obtain ⟨a', ha', hkey'⟩ := exists_parent ha hb hkey hparent
    exact .up ha' (ih (F.good_parent _ _ ha ha') (F.good_parent _ _ hb hparent) hkey')

theorem trans (hab : F.Below a b) (hbc : F.Below b c) : F.Below a c := by
  induction hab with
  | here h => exact congr_left ha hb h hbc
  | up hparent _ ih => exact .up hparent (ih (F.good_parent _ _ ha hparent) hb hbc)

/-- Of two nodes above the same one, one is above the other. -/
theorem comparable (hc : F.good c) (hab : F.Below a b) (hac : F.Below a c) : F.Below b c ∨ F.Below c b := by
  induction hab with
  | here h => exact .inl (congr_left hb ha h.symm hac)
  | up hparent h ih =>
    cases hac with
    | here hkey => exact .inr (congr_left hc ha hkey.symm (.up hparent h))
    | up hp' h' =>
      obtain rfl := Option.some.inj (hparent.symm.trans hp')
      exact ih (F.good_parent _ _ ha hparent) hb h'

theorem depth_eq (hkey : F.key a = F.key b) : F.depth a = F.depth b := by
  induction hd : F.depth b generalizing a b with
  | zero =>
    cases hparent : F.parent b with
    | none =>
      have h := F.key_parent a b ha hb hkey
      rw [hparent, map_none, map_eq_none_iff] at h
      exact F.depth_root a ha h
    | some c =>
      have := F.depth_parent b c hb hparent
      omega
  | succ d ih =>
    cases hparent : F.parent b with
    | none =>
      have := F.depth_root b hb hparent
      omega
    | some c =>
      obtain ⟨c', hc', hkey'⟩ := exists_parent ha hb hkey hparent
      have hdb := F.depth_parent b c hb hparent
      have hda := F.depth_parent a c' ha hc'
      have := ih (F.good_parent _ _ ha hc') (F.good_parent _ _ hb hparent) hkey' (by omega)
      omega

theorem depth_le (h : F.Below a b) : F.depth b ≤ F.depth a := by
  induction h with
  | here h => exact (depth_eq ha hb h).ge
  | up hparent _ ih =>
    have := ih (F.good_parent _ _ ha hparent) hb
    have := F.depth_parent _ _ ha hparent
    omega

/-- An ancestor that is not as deep as a node is above its parent. -/
theorem of_depth_lt (h : F.Below a b) (hlt : F.depth b < F.depth a) : ∃ a', F.parent a = some a' ∧ F.Below a' b := by
  cases h with
  | here h => exact absurd (depth_eq ha hb h) (by omega)
  | up hparent h => exact ⟨_, hparent, h⟩

/-- An ancestor that is as deep as a node has its key. -/
theorem key_eq (h : F.Below a b) (hde : F.depth b = F.depth a) : F.key a = F.key b := by
  cases h with
  | here h => exact h
  | up hparent h =>
    have := depth_le (F.good_parent _ _ ha hparent) hb h
    have := F.depth_parent _ _ ha hparent
    omega

end

end Forest.Below

/-! ### The least common ancestor -/

/-- No node is above both but those above `c`, which is. -/
structure Forest.IsLeastAbove (F : Forest α κ) (a b c : α) : Prop where
  left : F.Below a c
  right : F.Below b c
  least : ∀ d, F.good d → F.Below a d → F.Below b d → F.Below c d

/-- From nodes of different keys and of one depth, a common ancestor is above both parents. -/
theorem Forest.Below.parents (ha : F.good a) (hb : F.good b) (hc : F.good c) (hde : F.depth a = F.depth b)
    (hne : F.key a ≠ F.key b) (hac : F.Below a c) (hbc : F.Below b c) :
    ∃ a' b', F.parent a = some a' ∧ F.parent b = some b' ∧ F.Below a' c ∧ F.Below b' c := by
  have hlt : F.depth c < F.depth a := by
    refine Nat.lt_of_le_of_ne (hac.depth_le ha hc) fun heq => hne ?_
    exact (hac.key_eq ha hc heq).trans (hbc.key_eq hb hc (by omega)).symm
  obtain ⟨a', ha', hac'⟩ := hac.of_depth_lt ha hc hlt
  obtain ⟨b', hb', hbc'⟩ := hbc.of_depth_lt hb hc (by omega)
  exact ⟨a', b', ha', hb', hac', hbc'⟩

end V8Multithread.Base.Ancestry
