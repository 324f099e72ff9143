import Mathlib.Data.List.Nodup
import TemporalCheck.Proofs.Tableau.Node
import TemporalCheck.Tableau.Expansion

/-!
# What an expansion keeps true

An origin asks for formulas: the entry for the formula of the tableau, a committed node
for what it has put off. Every node has what its origins ask for, and every word that has
what an origin asks for fits one of the nodes with that origin.
-/

namespace TemporalCheck.Tableau

variable {f g : Formula} {t : Tableau} {n m : Node} {rest : List Node} {todo : List Formula}

def all (t : Tableau) : List Node := t.nodes ++ t.pending

inductive Demand (f : Formula) (nodes : List Node) : Origin → List Formula → Prop
  | entry : Demand f nodes .entry [f]
  | node {m : Node} (h : m ∈ nodes) : Demand f nodes (.node m.id) m.next.toList

structure Sound (f : Formula) (t : Tableau) : Prop where
  node : ∀ n ∈ t.all, n.Sound f
  finished : ∀ n ∈ t.nodes, n.todo = []
  ids : (t.all.map Node.id).Nodup
  fresh : ∀ n ∈ t.all, n.id < t.fresh
  distinct : t.nodes.Pairwise fun m n => agrees m n = false
  demand : ∀ n ∈ t.all, ∀ o ∈ n.incoming, ∃ l, Demand f t.nodes o l ∧ ∀ g ∈ l, n.Asks g
  covered : ∀ o l, Demand f t.nodes o l → ∀ w i, (∀ g ∈ l, g.Holds w i) →
    ∃ n ∈ t.all, o ∈ n.incoming ∧ n.Fits w i

theorem asks_seed {k : Nat} {o : Origin} {l : List Formula} :
    (Node.seed k o l).Asks g ↔ g ∈ l := by
  simp [Node.Asks, Node.seed]

theorem sound_seed {k : Nat} {o : Origin} {l : List Formula} (h : ∀ g ∈ l, g.Subformula f) :
    (Node.seed k o l).Sound f := by
  refine ⟨fun g hg => ?_, fun g hg => ?_, fun g hg => ?_⟩
  · rw [asks_seed] at hg
    exact h g (hg.resolve_right (OrdSet.not_mem_empty g))
  · exact absurd hg (OrdSet.not_mem_empty g)
  · exact absurd hg (OrdSet.not_mem_empty g)

theorem fits_seed {k : Nat} {o : Origin} {l : List Formula} {w : Word Letter} {i : Nat}
    (h : ∀ g ∈ l, g.Holds w i) : (Node.seed k o l).Fits w i := by
  refine ⟨fun g hg => h g (asks_seed.1 hg), fun g hg => ?_, fun l r hu => ?_⟩
  · exact absurd hg (OrdSet.not_mem_empty g)
  · exact absurd hu (OrdSet.not_mem_empty _)

theorem sound_start (f : Formula) : Sound f (start f) := by
  refine ⟨?_, nofun, List.nodup_singleton _, ?_, List.Pairwise.nil, ?_, ?_⟩
  · intro n hn
    rw [List.mem_singleton.1 hn]
    exact sound_seed fun g hg => List.mem_singleton.1 hg ▸ .refl f
  · intro n hn
    rw [List.mem_singleton.1 hn]
    exact Nat.zero_lt_one
  · intro n hn o ho
    rw [List.mem_singleton.1 hn] at ho ⊢
    rw [List.mem_singleton.1 ho]
    exact ⟨[f], .entry, fun g hg => asks_seed.2 hg⟩
  · intro o l hd w i hl
    cases hd with
    | entry => exact ⟨_, List.mem_singleton.2 rfl, List.mem_singleton.2 rfl, fits_seed hl⟩
    | node h => cases h

theorem advance_cons (t : Tableau) (rest : List Node) (hn : n.todo = g :: todo) (hg : g.IsNormal) :
    ∃ k, t.fresh ≤ k ∧
    t.advance n rest = .ok ⟨t.nodes, (n.drop.expand g).nodes t.fresh ++ rest, k⟩ ∧
      ∀ m ∈ (n.drop.expand g).nodes t.fresh, m.id = n.id ∨ m.id < k := by
  have hdrop : n.drop = ⟨n.id, n.incoming, todo, n.old, n.next⟩ := by rw [Node.drop, hn]; rfl
  have hids (m : Node) (hm : m ∈ (n.drop.expand g).nodes t.fresh) :
      m.id = n.id ∨ m.id = t.fresh := by
    have hid := (Node.map_id_nodes_expand hg n.drop t.fresh).mem (List.mem_map_of_mem hm)
    simpa [Node.drop] using hid
  have hfirst := Node.map_id_nodes_expand hg n.drop t.fresh
  simp only [advance, hn, ← hdrop]
  cases he : n.drop.expand g with
  | discard => exact ⟨t.fresh, Nat.le_refl _, rfl, fun _ hm => absurd hm List.not_mem_nil⟩
  | refine m =>
    refine ⟨t.fresh, Nat.le_refl _, rfl, fun m' hm' => Or.inl ?_⟩
    rw [he] at hfirst
    rw [List.mem_singleton.1 hm']
    exact (List.cons_prefix_cons.1 hfirst).1
  | split a b =>
    refine ⟨t.fresh + 1, Nat.le_succ _, rfl, fun m hm => ?_⟩
    rw [he] at hids
    rcases hids m hm with h | h
    · exact Or.inl h
    · exact Or.inr (by omega)
  | stuck h => exact absurd he (Node.expand_ne_stuck hg n.drop h)

theorem child_keeps (hg : g.IsNormal) (hn : n.todo = g :: todo) {k : Nat}
    (hm : m ∈ (n.drop.expand g).nodes k) :
    m.incoming = n.incoming ∧ ∀ x, n.Asks x → m.Asks x := by
  obtain ⟨way, ht⟩ : ∃ way, n.Takes g way m := by
    rcases Node.child_cases hg hn hm with ⟨-, ht⟩ | ⟨-, -, way, -, ht⟩
    · exact ⟨_, ht⟩
    · exact ⟨way, ht⟩
  exact ⟨ht.incoming, fun x hx => (ht.asks x).2 (Or.inl hx)⟩

theorem Sound.nodup_ids_fresh (h : Sound f t) (hp : t.pending = n :: rest) :
    (t.nodes.map Node.id ++ ([n.id, t.fresh] ++ rest.map Node.id)).Nodup := by
  have hids := h.ids
  have hfresh : t.fresh ∉ t.all.map Node.id := by
    intro hm
    obtain ⟨m, hm, he⟩ := List.mem_map.1 hm
    exact absurd (h.fresh m hm) (by omega)
  simp only [all, hp, List.map_append, List.map_cons] at hids hfresh
  have middle : ((t.nodes.map Node.id ++ [n.id]) ++ t.fresh :: rest.map Node.id).Perm
      (t.fresh :: ((t.nodes.map Node.id ++ [n.id]) ++ rest.map Node.id)) := List.perm_middle
  have perm : (t.fresh :: (t.nodes.map Node.id ++ n.id :: rest.map Node.id)).Perm
      (t.nodes.map Node.id ++ ([n.id, t.fresh] ++ rest.map Node.id)) := by
    simpa using middle.symm
  exact perm.nodup (List.nodup_cons.2 ⟨hfresh, hids⟩)

theorem Sound.nodup_ids_expand (h : Sound f t) (hp : t.pending = n :: rest) (hg : g.IsNormal) :
    ((t.nodes ++ ((n.drop.expand g).nodes t.fresh ++ rest)).map Node.id).Nodup := by
  rw [List.map_append, List.map_append]
  refine (h.nodup_ids_fresh hp).sublist ?_
  apply (List.Sublist.refl _).append
  exact (Node.map_id_nodes_expand hg n.drop t.fresh).sublist.append (List.Sublist.refl _)

theorem mem_expand_cases {children : List Node} (hp : t.pending = n :: rest)
    (hm : m ∈ t.nodes ++ (children ++ rest)) : m ∈ t.all ∨ m ∈ children := by
  simp only [all, hp, List.mem_append, List.mem_cons] at hm ⊢
  rcases hm with hm | hm | hm
  · exact Or.inl (Or.inl hm)
  · exact Or.inr hm
  · exact Or.inl (Or.inr (Or.inr hm))

theorem Sound.expand (h : Sound f t) (hf : f.IsNormal) (hp : t.pending = n :: rest)
    (hn : n.todo = g :: todo) {k : Nat} (hk : t.fresh ≤ k)
    (hid : ∀ m ∈ (n.drop.expand g).nodes t.fresh, m.id = n.id ∨ m.id < k) :
    Sound f ⟨t.nodes, (n.drop.expand g).nodes t.fresh ++ rest, k⟩ := by
  have hn' : n ∈ t.all := by simp [all, hp]
  have hg : g.IsNormal := by
    refine Formula.Subformula.isNormal ((h.node n hn').within g (Or.inl (Or.inr ?_))) hf
    simp [hn]
  refine ⟨fun m hm => ?_, h.finished, h.nodup_ids_expand hp hg, fun m hm => ?_, h.distinct,
    fun m hm o ho => ?_, fun o l hd w i hl => ?_⟩
  · rcases mem_expand_cases hp hm with hm | hm
    · exact h.node m hm
    · exact (h.node n hn').child hf hn hm
  · rcases mem_expand_cases hp hm with hm | hm
    · exact Nat.lt_of_lt_of_le (h.fresh m hm) hk
    · rcases hid m hm with he | hlt
      · rw [he]
        exact Nat.lt_of_lt_of_le (h.fresh n hn') hk
      · exact hlt
  · rcases mem_expand_cases hp hm with hm | hm
    · exact h.demand m hm o ho
    · obtain ⟨hin, hasks⟩ := child_keeps hg hn hm
      rw [hin] at ho
      obtain ⟨l, hd, hl⟩ := h.demand n hn' o ho
      exact ⟨l, hd, fun x hx => hasks x (hl x hx)⟩
  · obtain ⟨m, hm, ho, hfit⟩ := h.covered o l hd w i hl
    simp only [all, hp, List.mem_append, List.mem_cons] at hm
    rcases hm with hm | rfl | hm
    · exact ⟨m, List.mem_append.2 (Or.inl hm), ho, hfit⟩
    · obtain ⟨c, hc, hcfit, hin⟩ := hfit.exists_child hg hn t.fresh
      refine ⟨c, ?_, hin ▸ ho, hcfit⟩
      simp [all, hc]
    · exact ⟨m, by simp [all, hm], ho, hfit⟩

def absorb (n m : Node) : Node := if agrees n m then m.join n.incoming else m

theorem agrees_iff : agrees n m = true ↔ n.old = m.old ∧ n.next = m.next := decide_eq_true_iff

theorem absorb_eq (n m : Node) : ∃ incoming,
    absorb n m = ⟨m.id, incoming, m.todo, m.old, m.next⟩ ∧
      ∀ o, o ∈ incoming ↔ o ∈ m.incoming ∨ agrees n m = true ∧ o ∈ n.incoming := by
  cases h : agrees n m with
  | false => exact ⟨m.incoming, by rw [absorb, h]; rfl, by simp⟩
  | true =>
    refine ⟨_, by rw [absorb, h]; rfl, fun o => ?_⟩
    simp only [List.mem_append, List.mem_filter, decide_eq_true_eq, true_and]
    by_cases ho : o ∈ m.incoming <;> simp [ho]

theorem absorb_fields (n m : Node) : (absorb n m).id = m.id ∧ (absorb n m).old = m.old ∧
    (absorb n m).next = m.next := by
  obtain ⟨incoming, he, -⟩ := absorb_eq n m
  rw [he]
  exact ⟨rfl, rfl, rfl⟩

theorem demand_map_absorb {nodes : List Node} {o : Origin} {l : List Formula} :
    Demand f (nodes.map (absorb n)) o l ↔ Demand f nodes o l := by
  constructor
  · intro h
    cases h with
    | entry => exact .entry
    | node hm =>
      obtain ⟨m, hmem, rfl⟩ := List.mem_map.1 hm
      rw [(absorb_fields n m).1, (absorb_fields n m).2.2]
      exact .node hmem
  · intro h
    cases h with
    | entry => exact .entry
    | @node m hm =>
      rw [← (absorb_fields n m).1, ← (absorb_fields n m).2.2]
      exact .node (List.mem_map_of_mem hm)

theorem Node.Sound.absorb (h : m.Sound f) (n : Node) : (absorb n m).Sound f := by
  obtain ⟨incoming, he, -⟩ := absorb_eq n m
  rw [he]
  exact ⟨h.within, h.supports, h.consistent⟩

theorem Sound.demand_absorb (h : Sound f t) (hn : n ∈ t.all) (htodo : n.todo = [])
    (hm : m ∈ t.nodes) {o : Origin} (ho : o ∈ (absorb n m).incoming) :
    ∃ l, Demand f t.nodes o l ∧ ∀ g ∈ l, (absorb n m).Asks g := by
  obtain ⟨incoming, he, hin⟩ := absorb_eq n m
  rw [he] at ho ⊢
  rcases (hin o).1 ho with ho | ⟨ha, ho⟩
  · exact h.demand m (List.mem_append.2 (Or.inl hm)) o ho
  · obtain ⟨l, hd, hl⟩ := h.demand n hn o ho
    refine ⟨l, hd, fun x hx => ?_⟩
    have hx := (hl x hx).resolve_right (by simp [htodo])
    rw [(agrees_iff.1 ha).1] at hx
    exact Or.inl hx

theorem Sound.covered_join (h : Sound f t) (hp : t.pending = n :: rest) (hn : n.todo = [])
    {k : Node} (hk : k ∈ t.nodes) (hagrees : agrees n k = true) {o : Origin} {l : List Formula}
    (hd : Demand f t.nodes o l) {w : Word Letter} {i : Nat} (hl : ∀ g ∈ l, g.Holds w i) :
    ∃ m ∈ t.nodes.map (absorb n) ++ rest, o ∈ m.incoming ∧ m.Fits w i := by
  have mapped {c : Node} (hc : c ∈ t.nodes) : absorb n c ∈ t.nodes.map (absorb n) ++ rest :=
    List.mem_append.2 (Or.inl (List.mem_map_of_mem hc))
  obtain ⟨m, hm, ho, hfit⟩ := h.covered o l hd w i hl
  simp only [all, hp, List.mem_append, List.mem_cons] at hm
  rcases hm with hm | rfl | hm
  · obtain ⟨incoming, he, hin⟩ := absorb_eq n m
    refine ⟨absorb n m, mapped hm, ?_⟩
    rw [he]
    exact ⟨(hin o).2 (Or.inl ho), hfit.now, hfit.later, hfit.goal⟩
  -- The node that is joined fits, and the committed one asks for the same.
  · obtain ⟨incoming, he, hin⟩ := absorb_eq m k
    obtain ⟨hold, hnext⟩ := agrees_iff.1 hagrees
    refine ⟨absorb m k, mapped hk, ?_⟩
    rw [he, h.finished k hk, ← hn, ← hold, ← hnext]
    exact ⟨(hin o).2 (Or.inr ⟨hagrees, ho⟩), hfit.now, hfit.later, hfit.goal⟩
  · exact ⟨m, List.mem_append.2 (Or.inr hm), ho, hfit⟩

theorem Sound.join (h : Sound f t) (hp : t.pending = n :: rest) (hn : n.todo = [])
    {k : Node} (hk : k ∈ t.nodes) (hagrees : agrees n k = true) :
    Sound f ⟨t.nodes.map (absorb n), rest, t.fresh⟩ := by
  have inNodes {m : Node} (hm : m ∈ t.nodes) : m ∈ t.all := List.mem_append.2 (Or.inl hm)
  have inRest {m : Node} (hm : m ∈ rest) : m ∈ t.all := by simp [all, hp, hm]
  have cases_all {m : Node} (hm : m ∈ t.nodes.map (absorb n) ++ rest) :
      (∃ c ∈ t.nodes, m = absorb n c) ∨ m ∈ rest := by
    rcases List.mem_append.1 hm with hm | hm
    · obtain ⟨c, hc, rfl⟩ := List.mem_map.1 hm
      exact Or.inl ⟨c, hc, rfl⟩
    · exact Or.inr hm
  refine ⟨fun m hm => ?_, fun m hm => ?_, ?_, fun m hm => ?_, ?_, fun m hm o ho => ?_,
    fun o l hd w i hl => h.covered_join hp hn hk hagrees (demand_map_absorb.1 hd) hl⟩
  · rcases cases_all hm with ⟨c, hc, rfl⟩ | hm
    · exact (h.node c (inNodes hc)).absorb n
    · exact h.node m (inRest hm)
  · obtain ⟨c, hc, rfl⟩ := List.mem_map.1 hm
    obtain ⟨incoming, he, -⟩ := absorb_eq n c
    rw [he]
    exact h.finished c hc
  · have hids := h.ids
    have same : (t.nodes.map (absorb n)).map Node.id = t.nodes.map Node.id := by
      rw [List.map_map]
      exact List.map_congr_left fun m _ => (absorb_fields n m).1
    simp only [all, hp, List.map_append, List.map_cons, same] at hids ⊢
    exact hids.sublist ((List.Sublist.refl _).append (List.sublist_cons_self _ _))
  · rcases cases_all hm with ⟨c, hc, rfl⟩ | hm
    · rw [(absorb_fields n c).1]
      exact h.fresh c (inNodes hc)
    · exact h.fresh m (inRest hm)
  · refine List.pairwise_map.2 (h.distinct.imp fun {a b} hab => ?_)
    rw [← Bool.not_eq_true, agrees_iff] at hab ⊢
    rwa [(absorb_fields n a).2.1, (absorb_fields n a).2.2, (absorb_fields n b).2.1,
      (absorb_fields n b).2.2]
  · simp only [demand_map_absorb]
    rcases cases_all hm with ⟨c, hc, rfl⟩ | hm
    · exact h.demand_absorb (by simp [all, hp]) hn hc ho
    · exact h.demand m (inRest hm) o ho

theorem Demand.append {nodes : List Node} {o : Origin} {l : List Formula} (h : Demand f nodes o l)
    (added : List Node) : Demand f (nodes ++ added) o l := by
  cases h with
  | entry => exact .entry
  | node hm => exact .node (List.mem_append.2 (Or.inl hm))

theorem mem_commit_iff {seed : Node} (hp : t.pending = n :: rest) :
    m ∈ (t.nodes ++ [n]) ++ seed :: rest ↔ m ∈ t.all ∨ m = seed := by
  simp only [all, hp, List.mem_append, List.mem_cons, List.not_mem_nil, or_false]
  constructor
  · intro hm
    rcases hm with (hm | hm) | hm | hm <;> simp [hm]
  · intro hm
    rcases hm with (hm | hm | hm) | hm <;> simp [hm]

theorem Sound.commit (h : Sound f t) (hp : t.pending = n :: rest) (hn : n.todo = [])
    (hnew : ∀ m ∈ t.nodes, agrees n m = false) : Sound f
      ⟨t.nodes ++ [n], .seed t.fresh (.node n.id) n.next.toList :: rest, t.fresh + 1⟩ := by
  have hn' : n ∈ t.all := by simp [all, hp]
  refine ⟨fun m hm => ?_, fun m hm => ?_, ?_, fun m hm => ?_, ?_, fun m hm o ho => ?_,
    fun o l hd w i hl => ?_⟩
  · rcases (mem_commit_iff hp).1 hm with hm | rfl
    · exact h.node m hm
    · exact sound_seed fun g hg => (h.node n hn').within g (Or.inr hg)
  · rcases List.mem_append.1 hm with hm | hm
    · exact h.finished m hm
    · rwa [List.mem_singleton.1 hm]
  · have hids := h.nodup_ids_fresh hp
    simpa only [all, Node.seed, List.map_append, List.map_cons, List.map_nil, List.append_assoc,
      List.cons_append, List.nil_append] using hids
  · rcases (mem_commit_iff hp).1 hm with hm | rfl
    · exact Nat.lt_succ_of_lt (h.fresh m hm)
    · exact Nat.lt_succ_self _
  · refine List.pairwise_append.2 ⟨h.distinct, List.pairwise_singleton _ _, fun m hm k hk => ?_⟩
    have hne := hnew m hm
    rw [← Bool.not_eq_true, agrees_iff] at hne ⊢
    rw [List.mem_singleton.1 hk]
    exact fun he => hne ⟨he.1.symm, he.2.symm⟩
  · rcases (mem_commit_iff hp).1 hm with hm | rfl
    · obtain ⟨l, hd, hl⟩ := h.demand m hm o ho
      exact ⟨l, hd.append [n], hl⟩
    · rw [List.mem_singleton.1 ho]
      exact ⟨_, .node (List.mem_append.2 (Or.inr List.mem_cons_self)), fun g hg => asks_seed.2 hg⟩
  · have old (hd : Demand f t.nodes o l) : ∃ m ∈ (t.nodes ++ [n]) ++
        .seed t.fresh (.node n.id) n.next.toList :: rest, o ∈ m.incoming ∧ m.Fits w i := by
      obtain ⟨m, hm, ho, hfit⟩ := h.covered o l hd w i hl
      exact ⟨m, (mem_commit_iff hp).2 (Or.inl hm), ho, hfit⟩
    cases hd with
    | entry => exact old .entry
    | node hm =>
      rcases List.mem_append.1 hm with hm | hm
      · exact old (.node hm)
      · cases List.mem_singleton.1 hm
        exact ⟨_, (mem_commit_iff hp).2 (Or.inr rfl), List.mem_singleton.2 rfl, fits_seed hl⟩

theorem Sound.close (h : Sound f t) (hp : t.pending = n :: rest) (hn : n.todo = []) :
    Sound f (t.close n rest) := by
  unfold Tableau.close
  split
  · next ha =>
    obtain ⟨k, hk, ha⟩ := List.any_eq_true.1 ha
    exact h.join hp hn hk ha
  · next ha =>
    refine h.commit hp hn fun m hm => ?_
    rw [← Bool.not_eq_true]
    exact fun he => ha (List.any_eq_true.2 ⟨m, hm, he⟩)

theorem Sound.exists_advance (h : Sound f t) (hf : f.IsNormal) (hp : t.pending = n :: rest) :
    ∃ t', t.advance n rest = .ok t' ∧ Sound f t' := by
  cases hn : n.todo with
  | nil => exact ⟨t.close n rest, by rw [advance, hn], h.close hp hn⟩
  | cons g todo =>
    have hg : g.Subformula f := by
      refine (h.node n (by simp [all, hp])).within g (Or.inl (Or.inr ?_))
      simp [hn]
    obtain ⟨k, hk, hadv, hid⟩ := advance_cons t rest hn (hg.isNormal hf)
    exact ⟨_, hadv, h.expand hf hp hn hk hid⟩

end TemporalCheck.Tableau
