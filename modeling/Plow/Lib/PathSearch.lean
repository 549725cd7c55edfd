import Mathlib

/-!
# Breadth-first search

`pathTo` looks for a way from a node to another one, in a graph whose edges lead to greater numbers,
and reads it off the parents of the nodes it saw.  If there is a way, it finds one
(`pathTo_complete`).
-/

namespace Plow.Lib
open List Function Option

/-- what was read off the parents from `source` to `node`, before `path` -/
def backtrack (parent : ℕ → Option ℕ) (source : ℕ) : ℕ → ℕ → List ℕ → List ℕ
  | 0, _, path => path
  | fuel + 1, node, path =>
    if node = source then path
    else backtrack parent source fuel ((parent node).getD 0) (node :: path)

/-- the successors of a node, up to the target: the path, or the parents and the queue after them -/
def visit (n source target node : ℕ) :
    List ℕ → (ℕ → Option ℕ) → List ℕ → List ℕ ⊕ ((ℕ → Option ℕ) × List ℕ)
  | [], parent, queue => .inr (parent, queue)
  | x :: xs, parent, queue =>
    if (parent x).isSome then visit n source target node xs parent queue
    else
      let parent := update parent x (some node)
      if x = target then .inl (backtrack parent source n node [])
      else visit n source target node xs parent (queue ++ [x])

/-- the queue, with `fuel` nodes to come at most -/
def searchFrom (next : ℕ → List ℕ) (n source target : ℕ) :
    ℕ → (ℕ → Option ℕ) → List ℕ → Option (List ℕ)
  | 0, _, _ => none
  | _ + 1, _, [] => none
  | fuel + 1, parent, node :: queue =>
    match visit n source target node (next node) parent queue with
    | .inl path => some path
    | .inr (parent, queue) => searchFrom next n source target fuel parent queue

/-- the nodes between `source` and `target`, below `n` -/
def pathTo (next : ℕ → List ℕ) (n source target : ℕ) : Option (List ℕ) :=
  searchFrom next n source target n (update (fun _ => none) source (some source)) [source]

/-- `path` leads from `a` to `b`. -/
def Leads (next : ℕ → List ℕ) (a : ℕ) (path : List ℕ) (b : ℕ) : Prop :=
  IsChain (fun x y => y ∈ next x) (a :: (path ++ [b]))

/-- the state of the search: all that was seen is queued or has its successors seen -/
structure Searching (next : ℕ → List ℕ) (n source target : ℕ) (parent : ℕ → Option ℕ)
    (queue : List ℕ) : Prop where
  root : parent source ≠ none
  tree : ∀ x p, parent x = some p → x = source ∨ parent p ≠ none ∧ x ∈ next p
  unseen : parent target = none
  lt : ∀ x, parent x ≠ none → x < n
  queued : ∀ x ∈ queue, parent x ≠ none
  closed : ∀ x, parent x ≠ none → x ∈ queue ∨ ∀ y ∈ next x, parent y ≠ none

/-- how many nodes were not seen -/
def unseen (n : ℕ) (parent : ℕ → Option ℕ) : ℕ := ((Finset.range n).filter (parent · = none)).card

section
variable {next : ℕ → List ℕ} {n source target node : ℕ} {parent : ℕ → Option ℕ} {queue xs : List ℕ}

theorem unseen_update {x : ℕ} (hx : x < n) (hnone : parent x = none) (p : ℕ) :
    unseen n (update parent x (some p)) + 1 = unseen n parent := by
  have heq : (Finset.range n).filter (update parent x (some p) · = none) =
      ((Finset.range n).filter (parent · = none)).erase x := by
    ext y
    by_cases hy : y = x
    · simp [hy]
    · simp [hy, update_of_ne]
  rw [unseen, heq]
  exact Finset.card_erase_add_one (Finset.mem_filter.mpr ⟨Finset.mem_range.mpr hx, hnone⟩)

theorem backtrack_leads (hup : ∀ a, ∀ b ∈ next a, a < b)
    (htree : ∀ x p, parent x = some p → x = source ∨ parent p ≠ none ∧ x ∈ next p)
    {fuel : ℕ} {path : List ℕ} (hseen : parent node ≠ none) (hfuel : node < fuel)
    (h : Leads next node path target) :
    Leads next source (backtrack parent source fuel node path) target := by
  induction fuel generalizing node path with
  | zero => cases hfuel
  | succ fuel ih =>
    rw [backtrack]
    split
    · next heq => exact heq ▸ h
    · next hne =>
      obtain ⟨p, hp⟩ := ne_none_iff_exists'.mp hseen
      obtain ⟨hpar, hedge⟩ := (htree node p hp).resolve_left hne
      have hlt := hup p node hedge
      rw [hp]
      exact @ih p _ hpar (by omega) (.cons_cons hedge h)

section

variable (hup : ∀ a, ∀ b ∈ next a, a < b ∧ b < n)
include hup

theorem visit_spec
    (h : Searching next n source target parent (node :: queue)) (hxs : ∀ x ∈ xs, x ∈ next node) :
    match visit n source target node xs parent queue with
    | .inl path => Leads next source path target
    | .inr st => Searching next n source target st.1 (node :: st.2) ∧
        (∀ x ∈ xs, st.1 x ≠ none) ∧ (∀ x, parent x ≠ none → st.1 x ≠ none) ∧
        unseen n st.1 + st.2.length = unseen n parent + queue.length := by
  induction xs generalizing parent queue with
  | nil => exact ⟨h, nofun, fun x hx => hx, rfl⟩
  | cons x xs ih =>
    have hedge := hxs x mem_cons_self
    have hnode := h.queued node mem_cons_self
    by_cases hsome : (parent x).isSome
    · have hall := ih h fun y hy => hxs y (mem_cons_of_mem _ hy)
      rw [visit, if_pos hsome]
      generalize visit n source target node xs parent queue = r at hall ⊢
      cases r with
      | inl path => exact hall
      | inr st =>
        obtain ⟨hs, hsucc, hmono, hcount⟩ := hall
        refine ⟨hs, fun y hy => ?_, hmono, hcount⟩
        rcases mem_cons.mp hy with rfl | hy
        · exact hmono y (isSome_iff_ne_none.mp hsome)
        · exact hsucc y hy
    · have hnone : parent x = none := not_isSome_iff_eq_none.mp hsome
      have hmono : ∀ y, parent y ≠ none → update parent x (some node) y ≠ none := by
        intro y hy
        by_cases hyx : y = x
        · rw [hyx, update_self]
          exact some_ne_none _
        · rwa [update_of_ne hyx]
      have htree : ∀ y p, update parent x (some node) y = some p →
          y = source ∨ update parent x (some node) p ≠ none ∧ y ∈ next p := by
        intro y p hp
        by_cases hyx : y = x
        · rw [hyx, update_self] at hp
          cases hp
          exact .inr ⟨hmono _ hnode, hyx ▸ hedge⟩
        · rw [update_of_ne hyx] at hp
          exact (h.tree y p hp).imp_right fun ht => ⟨hmono p ht.1, ht.2⟩
      rw [visit, if_neg hsome]
      by_cases heq : x = target
      · rw [if_pos heq]
        refine backtrack_leads (fun a b hb => (hup a b hb).1) htree (hmono _ hnode) (h.lt _ hnode) ?_
        exact .cons_cons (heq ▸ hedge) (.singleton _)
      · rw [if_neg heq]
        have hs : Searching next n source target (update parent x (some node))
            (node :: (queue ++ [x])) := by
          refine ⟨hmono _ h.root, htree, ?_, fun y hy => ?_, fun y hy => ?_, fun y hy => ?_⟩
          · rw [update_of_ne (Ne.symm heq)]
            exact h.unseen
          · by_cases hyx : y = x
            · exact hyx ▸ (hup node x hedge).2
            · rw [update_of_ne hyx] at hy
              exact h.lt y hy
          · by_cases hyx : y = x
            · rw [hyx, update_self]
              exact some_ne_none _
            · refine hmono y (h.queued y ?_)
              simpa [hyx] using hy
          · by_cases hyx : y = x
            · simp [hyx]
            · rw [update_of_ne hyx] at hy
              rcases h.closed y hy with hq | hall
              · refine .inl ?_
                simp only [mem_cons, mem_append] at hq ⊢
                tauto
              · exact .inr fun z hz => hmono z (hall z hz)
        have hall := ih hs fun y hy => hxs y (mem_cons_of_mem _ hy)
        generalize visit n source target node xs (update parent x (some node)) (queue ++ [x]) = r
          at hall ⊢
        cases r with
        | inl path => exact hall
        | inr st =>
          obtain ⟨hs', hsucc, hmono', hcount⟩ := hall
          refine ⟨hs', fun y hy => ?_, fun y hy => hmono' y (hmono y hy), ?_⟩
          · rcases mem_cons.mp hy with rfl | hy
            · refine hmono' y ?_
              rw [update_self]
              exact some_ne_none _
            · exact hsucc y hy
          · have hless := unseen_update (hup node x hedge).2 hnone node
            rw [length_append, length_singleton] at hcount
            omega

theorem searchFrom_complete (htarget : target < n)
    (hreach : Relation.ReflTransGen (fun a b => b ∈ next a) source target) {fuel : ℕ}
    (h : Searching next n source target parent queue)
    (hfuel : unseen n parent + queue.length ≤ fuel) :
    ∃ path, searchFrom next n source target fuel parent queue = some path ∧
      Leads next source path target := by
  induction fuel generalizing parent queue with
  | zero =>
    have hpos : 0 < unseen n parent :=
      Finset.card_pos.mpr ⟨target, Finset.mem_filter.mpr ⟨Finset.mem_range.mpr htarget, h.unseen⟩⟩
    omega
  | succ fuel ih =>
    cases queue with
    | nil =>
      -- all that is reached was seen
      have hseen : ∀ y, Relation.ReflTransGen (fun a b => b ∈ next a) source y → parent y ≠ none :=
        fun y hy => by
          induction hy with
          | refl => exact h.root
          | tail _ hz ih => exact (h.closed _ ih).resolve_left not_mem_nil _ hz
      exact absurd h.unseen (hseen target hreach)
    | cons node queue =>
      rw [searchFrom]
      have hspec := @visit_spec next n source target node parent queue (next node) hup h
        fun _ hx => hx
      split at hspec
      · next path heq =>
        rw [heq]
        exact ⟨path, rfl, hspec⟩
      · next st heq =>
        obtain ⟨hs, hsucc, -, hcount⟩ := hspec
        rw [heq]
        refine ih ⟨hs.root, hs.tree, hs.unseen, hs.lt, fun x hx => hs.queued x (mem_cons_of_mem _ hx),
          fun x hx => ?_⟩ ?_
        · rcases hs.closed x hx with hmem | hall
          · rcases mem_cons.mp hmem with rfl | hmem
            · exact .inr hsucc
            · exact .inl hmem
          · exact .inr hall
        · rw [length_cons] at hfuel
          omega

/-- What is reached is found, by a path. -/
theorem pathTo_complete
    (hreach : Relation.TransGen (fun a b => b ∈ next a) source target) :
    ∃ path, pathTo next n source target = some path ∧ Leads next source path target := by
  have hlt : source < target ∧ target < n := by
    induction hreach with
    | single h => exact hup _ _ h
    | tail _ h ih => exact ⟨ih.1.trans (hup _ _ h).1, (hup _ _ h).2⟩
  have hsource : ∀ x, update (fun _ => none) source (some source) x ≠ none → x = source := by
    intro x hx
    by_contra hne
    exact hx (update_of_ne hne _ _)
  have hsome : update (fun _ : ℕ => (none : Option ℕ)) source (some source) source ≠ none := by
    rw [update_self]
    exact some_ne_none _
  refine searchFrom_complete hup hlt.2 hreach.to_reflTransGen ⟨hsome, fun x p hp => ?_, ?_,
    fun x hx => ?_, fun x hx => ?_, fun x hx => ?_⟩ ?_
  · exact .inl (hsource x (by rw [hp]; exact some_ne_none _))
  · exact update_of_ne hlt.1.ne' _ _
  · exact hsource x hx ▸ hlt.1.trans hlt.2
  · exact mem_singleton.mp hx ▸ hsome
  · exact .inl (mem_singleton.mpr (hsource x hx))
  · have hless := @unseen_update n (fun _ => none) source (hlt.1.trans hlt.2) rfl source
    have hall : unseen n (fun _ => none) ≤ n := (Finset.card_filter_le _ _).trans (by simp)
    rw [length_singleton]
    omega

end

end
end Plow.Lib
