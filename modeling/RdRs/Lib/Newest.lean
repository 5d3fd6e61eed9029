/-
  Histories of lists that keep the newest in front.

  A collection is shown as a list, moment by moment.  All that is known of it is how it may change from
  one moment to the next: what is new comes to the front, under keys that were never there, and of the
  rest some may go; the others keep their order.  An element may also be changed under its key.

  * `NewestFirst.since` — so it is between any two moments;
  * `NewestFirst.same_keys` — a list of the same length and with the same first key has the same keys,
    however much has come and gone in between;
  * `NewestFirst.same_within` — and then, as long as nothing was added and nothing changed, it has been
    the very same list all the while.
-/
import Mathlib

set_option linter.unusedVariables false

namespace RdRs.Newest

variable {α β : Type}

/-- What is new is in front, and its keys have not been there before. -/
structure NewestFirst (key : α → β) (list : Nat → List α) : Prop where
  nodup : ∀ n, ((list n).map key).Nodup
  next : ∀ n, ∃ new kept, (list (n + 1)).map key = new ++ kept ∧ kept.Sublist ((list n).map key) ∧
    ∀ k ∈ new, ∀ j ≤ n, k ∉ (list j).map key

/-- Between two moments no key was there that was not there at the first. -/
def Unadded (key : α → β) (list : Nat → List α) (a b : Nat) : Prop :=
  ∀ n, a ≤ n → n ≤ b → (list n).map key ⊆ (list a).map key

/-- Between two moments what has a key of the first is what it was then. -/
def Unmoved (key : α → β) (list : Nat → List α) (a b : Nat) : Prop :=
  ∀ n, a ≤ n → n ≤ b → ∀ x ∈ list n, ∀ y ∈ list a, key x = key y → x = y

variable {key : α → β} {list : Nat → List α} {a b n : Nat}

/-! ## Keys -/

/-- **What there is afterwards**: new keys in front, then some of the old ones in their order. -/
theorem NewestFirst.since (h : NewestFirst key list) (hab : a ≤ b) :
    ∃ new kept, (list b).map key = new ++ kept ∧ kept.Sublist ((list a).map key) ∧
      ∀ k ∈ new, ∀ j ≤ a, k ∉ (list j).map key := by
  induction b, hab using Nat.le_induction with
  | base => exact ⟨[], _, rfl, List.Sublist.refl _, fun k hk => absurd hk List.not_mem_nil⟩
  | succ b hab ih =>
    obtain ⟨new, kept, heq, hkept, hnew⟩ := ih
    obtain ⟨newer, left, hnext, hleft, hnewer⟩ := h.next b
    rw [heq] at hleft
    obtain ⟨fromNew, fromKept, rfl, hfromNew, hfromKept⟩ := List.sublist_append_iff.mp hleft
    refine ⟨newer ++ fromNew, fromKept, ?_, hfromKept.trans hkept, fun k hk j hj => ?_⟩
    · rw [hnext, List.append_assoc]
    · rcases List.mem_append.mp hk with hk | hk
      · exact hnewer k hk j (hj.trans hab)
      · exact hnew k (hfromNew.subset hk) j hj

/-- **The length and the first key tell the keys.** -/
theorem NewestFirst.same_keys (h : NewestFirst key list) (hab : a ≤ b)
    (hlen : (list b).length = (list a).length)
    (hhead : (list b).head?.map key = (list a).head?.map key) :
    (list b).map key = (list a).map key := by
  obtain ⟨new, kept, heq, hkept, hnew⟩ := h.since hab
  have hhead' : (new ++ kept).head? = ((list a).map key).head? := by
    rw [← heq, List.head?_map, List.head?_map, hhead]
  have hlen' : (new ++ kept).length = ((list a).map key).length := by
    rw [← heq, List.length_map, List.length_map, hlen]
  cases new with
  | nil =>
    rw [heq, List.nil_append]
    exact hkept.eq_of_length hlen'
  | cons k new =>
    -- the first key would be a new one and an old one
    have hold : k ∈ (list a).map key := List.mem_of_mem_head? (by rw [← hhead']; rfl)
    exact absurd hold (hnew k List.mem_cons_self a le_rfl)

/-- If no key is new, some of the old ones are left, in their order. -/
theorem NewestFirst.sublist (h : NewestFirst key list) (hab : a ≤ b) (hn : n ≤ a)
    (hold : (list b).map key ⊆ (list n).map key) :
    ((list b).map key).Sublist ((list a).map key) := by
  obtain ⟨new, kept, heq, hkept, hnew⟩ := h.since hab
  obtain rfl : new = [] := List.eq_nil_iff_forall_not_mem.mpr fun k hk =>
    hnew k hk n hn (hold (heq ▸ List.mem_append_left _ hk))
  rw [heq]
  exact hkept

/-! ## Elements -/

/-- Lists with the same keys, one with elements of the other. -/
theorem eq_of_keys {l l' : List α} (hnodup : (l.map key).Nodup) (hkeys : l'.map key = l.map key)
    (hmem : ∀ x ∈ l', x ∈ l) : l' = l := by
  have hlen : l'.length = l.length := by
    have := congrArg List.length hkeys
    rwa [List.length_map, List.length_map] at this
  refine List.ext_getElem hlen fun i hi hi' => ?_
  have hkey : key l'[i] = key l[i] := by
    have := congrArg (fun ks => ks[i]?) hkeys
    simpa [hi, hi'] using this
  exact List.inj_on_of_nodup_map hnodup (hmem _ (List.getElem_mem hi)) (List.getElem_mem hi') hkey

/-- The same keys and nothing changed: the same list. -/
theorem NewestFirst.same_list (h : NewestFirst key list) (hab : a ≤ b)
    (hkeys : (list b).map key = (list a).map key) (hun : Unmoved key list a b) :
    list b = list a := by
  refine eq_of_keys (h.nodup a) hkeys fun x hx => ?_
  have hkey : key x ∈ (list a).map key := hkeys ▸ List.mem_map_of_mem hx
  obtain ⟨y, hy, hxy⟩ := List.mem_map.mp hkey
  exact hun b hab le_rfl x hx y hy hxy.symm ▸ hy

/-- **The same list all the while**: it has the same keys in the end, and up to a moment nothing was
    added and nothing changed. -/
theorem NewestFirst.same_within (h : NewestFirst key list) (han : a ≤ n) (hnb : n ≤ b)
    (hkeys : (list b).map key = (list a).map key) (hnone : Unadded key list a n)
    (hun : Unmoved key list a n) : list n = list a := by
  have hold := h.sublist han le_rfl (hnone n han le_rfl)
  have hback := h.sublist hnb han (fun k hk => hkeys ▸ hk)
  rw [hkeys] at hback
  exact h.same_list han (hold.antisymm hback) hun

end RdRs.Newest
