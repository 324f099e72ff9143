import Mathlib.Data.List.Chain
import TemporalCheck.Search

/-!
# Breadth-first search reaches what there is to reach

Every trail of a search is a walk from a root. Conversely, on a finite set of nodes
that no step leaves, as many layers as there are nodes are enough: a layer that is
not empty sees a new node. So the nodes that are reached contain the roots and are
closed under steps, and none of them is reached twice. Each layer is one step longer
than the layer before, so no walk to a node is shorter than the trail to it.
-/

namespace TemporalCheck

namespace Trail

variable {α : Type}

@[simp] theorem nodes_start (a : α) : (start a).nodes = [a] := rfl

@[simp] theorem nodes_extend (t : Trail α) (a : α) : (t.extend a).nodes = t.nodes ++ [a] := by
  simp [nodes, extend]

@[simp] theorem length_start (a : α) : (start a).length = 0 := rfl

@[simp] theorem length_extend (t : Trail α) (a : α) : (t.extend a).length = t.length + 1 := rfl

theorem length_nodes (t : Trail α) : t.nodes.length = t.length + 1 := by
  simp [nodes, length]

theorem nodes_ne_nil (t : Trail α) : t.nodes ≠ [] := by
  simp [nodes]

@[simp] theorem getLast?_nodes (t : Trail α) : t.nodes.getLast? = some t.last := by
  simp [nodes]

theorem exists_nodes_eq {l : List α} (h : l ≠ []) : ∃ t : Trail α, t.nodes = l := by
  refine ⟨⟨l.getLast h, l.dropLast.reverse⟩, ?_⟩
  simp [nodes, List.dropLast_append_getLast h]

structure IsWalk (next : α → List α) (roots : List α) (t : Trail α) : Prop where
  chain : t.nodes.IsChain fun a b => b ∈ next a
  root : ∃ a ∈ roots, t.nodes.head? = some a

theorem IsWalk.start {next : α → List α} {roots : List α} {a : α} (h : a ∈ roots) :
    (start a).IsWalk next roots :=
  ⟨List.isChain_singleton a, a, h, rfl⟩

theorem isWalk_extend_iff {next : α → List α} {roots : List α} {t : Trail α} {a : α} :
    (t.extend a).IsWalk next roots ↔ t.IsWalk next roots ∧ a ∈ next t.last := by
  have head : (t.extend a).nodes.head? = t.nodes.head? := by
    rw [nodes_extend, List.head?_append_of_ne_nil _ t.nodes_ne_nil]
  have chain : (t.extend a).nodes.IsChain (fun a b => b ∈ next a) ↔
      t.nodes.IsChain (fun a b => b ∈ next a) ∧ a ∈ next t.last := by
    simp [nodes_extend, List.isChain_append]
  constructor
  · intro h
    obtain ⟨hchain, hlast⟩ := chain.1 h.chain
    exact ⟨⟨hchain, head ▸ h.root⟩, hlast⟩
  · intro h
    exact ⟨chain.2 ⟨h.1.chain, h.2⟩, head ▸ h.1.root⟩

theorem IsWalk.last_of_step {P : α → Prop} {next : α → List α} {roots : List α} {t : Trail α}
    (h : t.IsWalk next roots) (root : ∀ a ∈ roots, P a) (step : ∀ a, P a → ∀ b ∈ next a, P b) :
    P t.last := by
  obtain ⟨a, before⟩ := t
  induction before generalizing a with
  | nil =>
    obtain ⟨b, hb, hh⟩ := h.root
    cases hh
    exact root _ hb
  | cons b before ih =>
    obtain ⟨hwalk, ha⟩ := isWalk_extend_iff (t := ⟨b, before⟩).1 h
    exact step b (ih b hwalk) a ha

end Trail

namespace Search

variable {α : Type} {next : α → List α}

/-- The bound that a search needs: the nodes that are not seen before the current layer. The
trails of the layer have the length `d`. -/
structure Covered (next : α → List α) (space : List α) (n d : Nat) (seen : List α)
    (layer : List (Trail α)) : Prop where
  closed : ∀ a ∈ space, ∀ b ∈ next a, b ∈ space
  nodup : seen.Nodup
  subset : ∀ a ∈ seen, a ∈ space
  layer_seen : ∀ t ∈ layer, t.last ∈ seen
  layer_length : ∀ t ∈ layer, t.length = d
  bound : space.length + layer.length ≤ n + seen.length

variable {space seen : List α} {n d : Nat} {layer : List (Trail α)}

theorem Covered.layer_eq_nil (h : Covered next space 0 d seen layer) : layer = [] := by
  have hl := h.nodup.length_le_of_subset h.subset
  have hb := h.bound
  exact List.eq_nil_of_length_eq_zero (by omega)

variable [DecidableEq α]

theorem visit_sublist (seen : List α) (ts : List (Trail α)) : (visit seen ts).2.Sublist ts := by
  induction ts generalizing seen with
  | nil => exact List.Sublist.refl []
  | cons t ts ih =>
    rw [visit]
    split
    · exact (ih seen).cons t
    · exact (ih (t.last :: seen)).cons_cons t

theorem mem_visit_seen (seen : List α) (ts : List (Trail α)) (a : α) :
    a ∈ (visit seen ts).1 ↔ a ∈ seen ∨ ∃ t ∈ (visit seen ts).2, t.last = a := by
  induction ts generalizing seen with
  | nil => simp [visit]
  | cons t ts ih =>
    rw [visit]
    split
    · exact ih seen
    · rw [ih]
      simp only [List.mem_cons, exists_eq_or_imp, ← or_assoc]
      rw [or_comm (a := a = t.last), eq_comm]

theorem last_mem_visit_seen {seen : List α} {ts : List (Trail α)} {t : Trail α} (h : t ∈ ts) :
    t.last ∈ (visit seen ts).1 := by
  induction ts generalizing seen with
  | nil => cases h
  | cons u ts ih =>
    rw [visit]
    split
    · next hu =>
      rcases List.mem_cons.1 h with rfl | h
      · exact (mem_visit_seen seen ts t.last).2 (Or.inl hu)
      · exact ih h
    · rcases List.mem_cons.1 h with rfl | h
      · exact (mem_visit_seen _ ts t.last).2 (Or.inl List.mem_cons_self)
      · exact ih h

theorem visit_fresh (seen : List α) (ts : List (Trail α)) :
    (∀ t ∈ (visit seen ts).2, t.last ∉ seen) ∧ ((visit seen ts).2.map Trail.last).Nodup := by
  induction ts generalizing seen with
  | nil => simp [visit]
  | cons u ts ih =>
    rw [visit]
    split
    · exact ih seen
    · next hu =>
      obtain ⟨hf, hn⟩ := ih (u.last :: seen)
      constructor
      · intro t ht
        rcases List.mem_cons.1 ht with rfl | ht
        · exact hu
        · exact fun hs => hf t ht (List.mem_cons_of_mem _ hs)
      · refine List.nodup_cons.2 ⟨fun hm => ?_, hn⟩
        obtain ⟨t, ht, he⟩ := List.mem_map.1 hm
        exact hf t ht (he ▸ List.mem_cons_self)

theorem visit_seen {seen : List α} (ts : List (Trail α)) (h : seen.Nodup) :
    (visit seen ts).1.Nodup ∧ (visit seen ts).1.length = seen.length + (visit seen ts).2.length := by
  induction ts generalizing seen with
  | nil => exact ⟨h, rfl⟩
  | cons u ts ih =>
    rw [visit]
    split
    · exact ih h
    · next hu =>
      obtain ⟨hn, hl⟩ := ih (List.nodup_cons.2 ⟨hu, h⟩)
      refine ⟨hn, ?_⟩
      rw [hl, List.length_cons, List.length_cons]
      omega

def stepLayer (next : α → List α) (seen : List α) (layer : List (Trail α)) :
    List α × List (Trail α) :=
  visit seen (layer.flatMap fun t => (next t.last).map t.extend)

theorem layers_succ (n : Nat) (seen : List α) (layer : List (Trail α)) (h : layer ≠ []) :
    layers next (n + 1) seen layer =
      layer ++ layers next n (stepLayer next seen layer).1 (stepLayer next seen layer).2 := by
  cases layer with
  | nil => exact absurd rfl h
  | cons t ts => rfl

theorem layers_nil (n : Nat) (seen : List α) : layers next n seen [] = [] := by
  cases n <;> rfl

theorem exists_of_mem_stepLayer {seen : List α} {layer : List (Trail α)} {u : Trail α}
    (h : u ∈ (stepLayer next seen layer).2) : ∃ t ∈ layer, ∃ a ∈ next t.last, t.extend a = u := by
  have hm := (visit_sublist seen _).subset h
  obtain ⟨t, ht, hu⟩ := List.mem_flatMap.1 hm
  obtain ⟨a, ha, he⟩ := List.mem_map.1 hu
  exact ⟨t, ht, a, ha, he⟩

theorem next_mem_stepLayer {seen : List α} {layer : List (Trail α)} {t : Trail α} {a : α}
    (ht : t ∈ layer) (ha : a ∈ next t.last) : a ∈ (stepLayer next seen layer).1 :=
  last_mem_visit_seen (t := t.extend a)
    (List.mem_flatMap.2 ⟨t, ht, List.mem_map.2 ⟨a, ha, rfl⟩⟩)

theorem isWalk_of_mem_layers {roots : List α} {n : Nat} {seen : List α} {layer : List (Trail α)}
    (h : ∀ t ∈ layer, t.IsWalk next roots) :
    ∀ t ∈ layers next n seen layer, t.IsWalk next roots := by
  induction n generalizing seen layer with
  | zero => intro t ht; cases ht
  | succ n ih =>
    intro t ht
    by_cases hl : layer = []
    · rw [hl, layers_nil] at ht
      cases ht
    · rw [layers_succ n seen layer hl] at ht
      rcases List.mem_append.1 ht with ht | ht
      · exact h t ht
      · refine ih (fun u hu => ?_) t ht
        obtain ⟨v, hv, a, ha, rfl⟩ := exists_of_mem_stepLayer hu
        exact Trail.isWalk_extend_iff.2 ⟨h v hv, ha⟩

theorem mem_layer_or_fresh {n : Nat} {seen : List α} {layer : List (Trail α)} {t : Trail α}
    (h : t ∈ layers next n seen layer) : t ∈ layer ∨ t.last ∉ seen := by
  induction n generalizing seen layer with
  | zero => cases h
  | succ n ih =>
    by_cases hl : layer = []
    · rw [hl, layers_nil] at h
      cases h
    · rw [layers_succ n seen layer hl] at h
      rcases List.mem_append.1 h with h | h
      · exact Or.inl h
      · right
        rcases ih h with ht | ht
        · exact (visit_fresh seen _).1 t ht
        · intro hs
          exact ht ((mem_visit_seen seen _ t.last).2 (Or.inl hs))

theorem nodup_layers {n : Nat} {seen : List α} {layer : List (Trail α)}
    (hseen : ∀ t ∈ layer, t.last ∈ seen) (hn : (layer.map Trail.last).Nodup) :
    ((layers next n seen layer).map Trail.last).Nodup := by
  induction n generalizing seen layer with
  | zero => exact List.nodup_nil
  | succ n ih =>
    by_cases hl : layer = []
    · rw [hl, layers_nil]
      exact List.nodup_nil
    · rw [layers_succ n seen layer hl, List.map_append]
      have hseen' : ∀ t ∈ (stepLayer next seen layer).2, t.last ∈ (stepLayer next seen layer).1 :=
        fun t ht => (mem_visit_seen seen _ t.last).2 (Or.inr ⟨t, ht, rfl⟩)
      have hrest := ih hseen' (visit_fresh seen _).2
      refine List.nodup_append.2 ⟨hn, hrest, fun a ha b hb he => ?_⟩
      obtain ⟨t, ht, rfl⟩ := List.mem_map.1 ha
      obtain ⟨u, hu, rfl⟩ := List.mem_map.1 hb
      -- A later trail ends in a node that was not seen, an earlier one in a node that was.
      have hs : u.last ∈ seen := he ▸ hseen t ht
      rcases mem_layer_or_fresh hu with hu | hu
      · exact (visit_fresh seen _).1 u hu hs
      · exact hu ((mem_visit_seen seen _ u.last).2 (Or.inl hs))

theorem length_stepLayer {d : Nat} {seen : List α} {layer : List (Trail α)}
    (h : ∀ t ∈ layer, t.length = d) : ∀ u ∈ (stepLayer next seen layer).2, u.length = d + 1 := by
  intro u hu
  obtain ⟨t, ht, a, -, rfl⟩ := exists_of_mem_stepLayer hu
  rw [Trail.length_extend, h t ht]

theorem le_length_of_mem_layers {n d : Nat} {seen : List α} {layer : List (Trail α)}
    (h : ∀ t ∈ layer, t.length = d) : ∀ u ∈ layers next n seen layer, d ≤ u.length := by
  induction n generalizing d seen layer with
  | zero => intro u hu; cases hu
  | succ n ih =>
    intro u hu
    by_cases hl : layer = []
    · rw [hl, layers_nil] at hu
      cases hu
    · rw [layers_succ n seen layer hl] at hu
      rcases List.mem_append.1 hu with hu | hu
      · exact (h u hu).ge
      · exact Nat.le_of_succ_le (ih (length_stepLayer h) u hu)

theorem pairwise_length_layers {n d : Nat} {seen : List α} {layer : List (Trail α)}
    (h : ∀ t ∈ layer, t.length = d) :
    (layers next n seen layer).Pairwise fun t u => t.length ≤ u.length := by
  induction n generalizing d seen layer with
  | zero => exact List.Pairwise.nil
  | succ n ih =>
    by_cases hl : layer = []
    · rw [hl, layers_nil]
      exact List.Pairwise.nil
    · rw [layers_succ n seen layer hl]
      refine List.pairwise_append.2 ⟨?_, ih (length_stepLayer h), fun t ht u hu => ?_⟩
      · exact List.pairwise_of_forall_mem_list fun t ht u hu => ((h t ht).trans (h u hu).symm).le
      · rw [h t ht]
        exact Nat.le_of_succ_le (le_length_of_mem_layers (length_stepLayer h) u hu)

theorem Covered.step (h : Covered next space (n + 1) d seen layer) (hl : layer ≠ []) :
    Covered next space n (d + 1) (stepLayer next seen layer).1 (stepLayer next seen layer).2 := by
  obtain ⟨hn, hlen⟩ := visit_seen (layer.flatMap fun t => (next t.last).map t.extend) h.nodup
  refine ⟨h.closed, hn, ?_, fun t ht => (mem_visit_seen seen _ t.last).2 (Or.inr ⟨t, ht, rfl⟩),
    length_stepLayer h.layer_length, ?_⟩
  · intro a ha
    rcases (mem_visit_seen seen _ a).1 ha with ha | ⟨u, hu, rfl⟩
    · exact h.subset a ha
    · obtain ⟨t, ht, b, hb, rfl⟩ := exists_of_mem_stepLayer hu
      exact h.closed t.last (h.subset _ (h.layer_seen t ht)) b hb
  · have hpos := List.length_pos_iff.2 hl
    have hb := h.bound
    simp only [stepLayer]
    omega

theorem Covered.mem_layers (h : Covered next space n d seen layer) {t : Trail α}
    (ht : t ∈ layer) : t ∈ layers next n seen layer := by
  cases n with
  | zero => rwa [h.layer_eq_nil] at ht
  | succ n =>
    rw [layers_succ n seen layer (List.ne_nil_of_mem ht)]
    exact List.mem_append_left _ ht

theorem Covered.next_reached (h : Covered next space n d seen layer) {t : Trail α} {a : α}
    (ht : t ∈ layers next n seen layer) (ha : a ∈ next t.last) :
    a ∈ seen ∨ ∃ u ∈ layers next n seen layer, u.last = a ∧ u.length ≤ t.length + 1 := by
  induction n generalizing d seen layer with
  | zero => cases ht
  | succ n ih =>
    by_cases hl : layer = []
    · rw [hl, layers_nil] at ht
      cases ht
    · have hstep := h.step hl
      have hle := le_length_of_mem_layers h.layer_length t ht
      rw [layers_succ n seen layer hl] at ht ⊢
      have old (hs : a ∈ (stepLayer next seen layer).1) : a ∈ seen ∨ ∃ u ∈ layer ++
          layers next n (stepLayer next seen layer).1 (stepLayer next seen layer).2,
            u.last = a ∧ u.length ≤ t.length + 1 := by
        rcases (mem_visit_seen seen _ a).1 hs with hs | ⟨u, hu, he⟩
        · exact Or.inl hs
        · refine Or.inr ⟨u, List.mem_append_right _ (hstep.mem_layers hu), he, ?_⟩
          rw [hstep.layer_length u hu]
          exact Nat.succ_le_succ hle
      rcases List.mem_append.1 ht with ht | ht
      · exact old (next_mem_stepLayer ht ha)
      · rcases ih hstep ht with hs | ⟨u, hu, he⟩
        · exact old hs
        · exact Or.inr ⟨u, List.mem_append_right _ hu, he⟩

variable {roots : List α} {t : Trail α}

theorem isWalk_of_mem_trails (h : t ∈ trails next n roots) : t.IsWalk next roots := by
  refine isWalk_of_mem_layers (fun u hu => ?_) t h
  obtain ⟨a, ha, rfl⟩ := List.mem_map.1 ((visit_sublist [] _).subset hu)
  exact Trail.IsWalk.start ha

theorem nodup_trails : ((trails next n roots).map Trail.last).Nodup :=
  nodup_layers (fun t ht => (mem_visit_seen [] _ t.last).2 (Or.inr ⟨t, ht, rfl⟩))
    (visit_fresh [] _).2

theorem length_roots : ∀ t ∈ (visit [] (roots.map Trail.start)).2, t.length = 0 := by
  intro t ht
  obtain ⟨a, -, rfl⟩ := List.mem_map.1 ((visit_sublist [] _).subset ht)
  exact Trail.length_start a

theorem pairwise_length_trails :
    (trails next n roots).Pairwise fun t u => t.length ≤ u.length :=
  pairwise_length_layers length_roots

theorem length_le_of_find? {kind : Trail α → Bool} {t u : Trail α}
    (h : (trails next n roots).find? kind = some t) (hu : u ∈ trails next n roots)
    (hk : kind u = true) : t.length ≤ u.length := by
  obtain ⟨-, before, after, he, hnot⟩ := List.find?_eq_some_iff_append.1 h
  have hsorted : (trails next n roots).Pairwise fun t u => t.length ≤ u.length :=
    pairwise_length_trails
  rw [he] at hsorted hu
  rcases List.mem_append.1 hu with hu | hu
  · have hearlier := hnot u hu
    simp [hk] at hearlier
  · rcases List.mem_cons.1 hu with rfl | hu
    · exact Nat.le_refl _
    · exact List.rel_of_pairwise_cons (List.pairwise_append.1 hsorted).2.1 hu

theorem covered_roots (closed : ∀ a ∈ space, ∀ b ∈ next a, b ∈ space)
    (hroots : ∀ a ∈ roots, a ∈ space) (hn : space.length ≤ n) :
    Covered next space n 0 (visit [] (roots.map Trail.start)).1
      (visit [] (roots.map Trail.start)).2 := by
  obtain ⟨hnodup, hlen⟩ := visit_seen (roots.map Trail.start) List.nodup_nil
  refine ⟨closed, hnodup, ?_, fun t ht => (mem_visit_seen [] _ t.last).2 (Or.inr ⟨t, ht, rfl⟩),
    length_roots, ?_⟩
  · intro a ha
    rcases (mem_visit_seen [] _ a).1 ha with ha | ⟨u, hu, rfl⟩
    · cases ha
    · obtain ⟨b, hb, rfl⟩ := List.mem_map.1 ((visit_sublist [] _).subset hu)
      exact hroots b hb
  · rw [hlen, List.length_nil]
    omega

/-- The nodes that a search reaches contain the roots and are closed under steps, and a step
makes a trail longer by one at most. -/
theorem trails_closed (closed : ∀ a ∈ space, ∀ b ∈ next a, b ∈ space)
    (hroots : ∀ a ∈ roots, a ∈ space) (hn : space.length ≤ n) :
    (∀ a ∈ roots, ∃ t ∈ trails next n roots, t.last = a ∧ t.length = 0) ∧
      ∀ t ∈ trails next n roots, ∀ a ∈ next t.last,
        ∃ u ∈ trails next n roots, u.last = a ∧ u.length ≤ t.length + 1 := by
  have cover := covered_roots closed hroots hn
  have seen {a : α} (ha : a ∈ (visit [] (roots.map Trail.start)).1) :
      ∃ t ∈ trails next n roots, t.last = a ∧ t.length = 0 := by
    rcases (mem_visit_seen [] _ a).1 ha with ha | ⟨u, hu, he⟩
    · cases ha
    · exact ⟨u, cover.mem_layers hu, he, length_roots u hu⟩
  constructor
  · intro a ha
    exact seen (last_mem_visit_seen (t := Trail.start a) (List.mem_map.2 ⟨a, ha, rfl⟩))
  · intro t ht a ha
    rcases cover.next_reached ht ha with hs | hu
    · obtain ⟨u, hu, he, hlen⟩ := seen hs
      exact ⟨u, hu, he, by omega⟩
    · exact hu

theorem exists_trail_le (closed : ∀ a ∈ space, ∀ b ∈ next a, b ∈ space)
    (hroots : ∀ a ∈ roots, a ∈ space) (hn : space.length ≤ n) {w : Trail α}
    (hw : w.IsWalk next roots) :
    ∃ t ∈ trails next n roots, t.last = w.last ∧ t.length ≤ w.length := by
  obtain ⟨hstart, hnext⟩ := trails_closed closed hroots hn
  obtain ⟨a, before⟩ := w
  induction before generalizing a with
  | nil =>
    obtain ⟨b, hb, hh⟩ := hw.root
    cases hh
    obtain ⟨t, ht, hlast, hlen⟩ := hstart _ hb
    exact ⟨t, ht, hlast, hlen.le⟩
  | cons b before ih =>
    obtain ⟨hwalk, ha⟩ := Trail.isWalk_extend_iff (t := ⟨b, before⟩).1 hw
    obtain ⟨t, ht, hlast, hlen⟩ := ih b hwalk
    obtain ⟨u, hu, hulast, hulen⟩ := hnext t ht a (hlast ▸ ha)
    refine ⟨u, hu, hulast, Nat.le_trans hulen ?_⟩
    exact Nat.succ_le_succ hlen

end Search

end TemporalCheck
