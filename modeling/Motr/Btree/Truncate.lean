import Motr.Btree.Run

/-!
`m0_btree_truncate` (`btree_truncate_tick` of `be/btree.c`), which empties a tree a few nodes
at a time, a call freeing nodes until its credit `bo_limit` is down to `2`.

A call descends the rightmost path of the tree to a leaf, empties the leaf and frees it, and
takes one record off the parent; a parent left without records is relabelled a leaf of level
`0` in place, at a cost of one more credit. While credit is left the call descends again from
the parent, so a relabelled parent is freed in turn, being a leaf now; the root is never freed,
but emptied and relabelled a leaf. So a call removes the rightmost subtrees of the tree, and
may stop with a relabelled, empty node on the rightmost path. The truncation of a subtree is
`btreeTruncateNode`, that of the records of a node from one index on `btreeTruncateRecs`,
both recursive on the tree, the records of a node being taken last first. A node is named by
its path, the indices of the children taken from the root (`BNode.paths`); paths do not change
under a truncation, which only removes last records.

* `btreeTruncate_paths`: the nodes a call frees and the nodes the tree keeps are, together, the
  nodes of the tree before the call, each once; a freed node is not in the tree after the call.
* `btreeTruncate_contents`: a call keeps a prefix of the records of the tree.
* `btreeTruncateAll_done`: on a valid tree, calls with a credit of at least `3` repeated until
  the root has no record end within as many calls as the tree has nodes; every node but the
  root is freed exactly once, and the root is left an empty leaf.
* `btreeTruncateAll_frees_tree`: the three together.
* `btreeTruncate_breaks_invariant`: a call may stop right after relabelling a node below the
  root, and the tree is then not valid; `t_height` is never updated, so the empty root leaf
  the calls end with is not valid either.
-/

namespace Motr

variable {K V : Type}

/-! ### Node paths -/

namespace BNode

mutual

/-- The nodes below a node, each by its path: the indices of the children taken from it. -/
def paths : BNode K V → List (List Nat)
  | .leaf _ => []
  | .inner _ recs => pathsF 0 recs

/-- The nodes below the records of a node from index `i` on, by their paths from the node. -/
def pathsF (i : Nat) : List (K × BNode K V) → List (List Nat)
  | [] => []
  | (_, c) :: rs => ([i] :: c.paths.map (i :: ·)) ++ pathsF (i + 1) rs

end

@[simp] lemma paths_leaf (recs : List (K × V)) : (BNode.leaf recs).paths = [] := by
  simp [paths]

@[simp] lemma paths_inner (l : Nat) (recs : List (K × BNode K V)) :
    (BNode.inner l recs).paths = pathsF 0 recs := by
  simp [paths]

@[simp] lemma pathsF_nil (i : Nat) : pathsF i ([] : List (K × BNode K V)) = [] := by
  simp [pathsF]

@[simp] lemma pathsF_cons (i : Nat) (k : K) (c : BNode K V) (rs : List (K × BNode K V)) :
    pathsF i ((k, c) :: rs) = ([i] :: c.paths.map (i :: ·)) ++ pathsF (i + 1) rs := by
  simp [pathsF]

end BNode

/-! ### One call -/

/-- What the truncation of a subtree, or of the records of a node from one index on, hands
back to the level above, with the credit left and the nodes freed below, by their paths. -/
inductive TruncUp (α : Type) where
  /-- Emptied: a subtree relabelled an empty leaf, for the level above to free; or records all
  freed, the call going on with the record before. -/
  | emptied (limit : Nat) (freed : List (List Nat))
  /-- The call ran out of credit, leaving this subtree, or these records. -/
  | stopped (a : α) (limit : Nat) (freed : List (List Nat))

mutual

/-- The truncation of a subtree reached by the descent: a leaf is emptied, for the level above
to free it; an internal node is truncated record by record, last first, and relabelled an
empty leaf when its last record goes, the call stopping there if its credit is down to `2`. -/
def btreeTruncateNode (limit : Nat) : BNode K V → TruncUp (BNode K V)
  | .leaf _ => .emptied limit []
  | .inner lvl recs =>
    match btreeTruncateRecs limit 0 recs with
    | .stopped rs l fr => .stopped (.inner lvl rs) l fr
    | .emptied l fr => if l ≤ 2 then .stopped (.leaf []) l fr else .emptied l fr

/-- The truncation of the records of a node from index `idx` on: the later records first;
then the child of record `idx` is truncated, and freed if emptied (one credit), taking the
record off the node; taking off record `0` leaves the node without records, relabelled (one
more credit); otherwise the call stops if its credit is down to `2`. -/
def btreeTruncateRecs (limit idx : Nat) : List (K × BNode K V) → TruncUp (List (K × BNode K V))
  | [] => .emptied limit []
  | (k, c) :: rs =>
    match btreeTruncateRecs limit (idx + 1) rs with
    | .stopped rs' l fr => .stopped ((k, c) :: rs') l fr
    | .emptied l fr =>
      match btreeTruncateNode l c with
      | .stopped c' l' fr' => .stopped [(k, c')] l' (fr ++ fr'.map (idx :: ·))
      | .emptied l' fr' =>
        let freed := fr ++ fr'.map (idx :: ·) ++ [[idx]]
        if idx = 0 then .emptied (l' - 1 - 1) freed
        else if l' - 1 ≤ 2 then .stopped [] (l' - 1) freed
        else .emptied (l' - 1) freed

end

/-- **`m0_btree_truncate(arbor, limit)`**: the tree after one call, and the nodes it freed, by
their paths from the root. The root is emptied and relabelled a leaf when the descent empties
it; `t_height` is left as it is. -/
def btreeTruncate (limit : Nat) (t : Btree K V) : Btree K V × List (List Nat) :=
  match btreeTruncateNode limit t.root with
  | .stopped n _ fr => (⟨n, t.height⟩, fr)
  | .emptied _ fr => (⟨.leaf [], t.height⟩, fr)

/-- A call leaves `t_height` as it is. -/
@[simp] lemma btreeTruncate_height (limit : Nat) (t : Btree K V) :
    (btreeTruncate limit t).1.height = t.height := by
  unfold btreeTruncate
  split <;> rfl

/-- `m0_btree_truncate` called until the root has no record, at most `fuel` times: the tree at
the end and the nodes freed, in order; `none` when the calls do not end within `fuel`. -/
def btreeTruncateAll (limit : Nat) : Nat → Btree K V → Option (Btree K V × List (List Nat))
  | fuel, t =>
    if t.root.recCount = 0 then some (t, [])
    else
      match fuel with
      | 0 => none
      | fuel + 1 =>
        let r := btreeTruncate limit t
        (btreeTruncateAll limit fuel r.1).map fun r' => (r'.1, r.2 ++ r'.2)

/-! ### The nodes a call frees -/

/-- A truncation keeps the nodes: those it frees and those it leaves, `ps` giving the nodes of
what it leaves, are together the nodes `before`, each as often. -/
def TruncUp.Keeps {α : Type} (ps : α → List (List Nat)) (before : List (List Nat)) :
    TruncUp α → Prop
  | .emptied _ fr => fr.Perm before
  | .stopped a _ fr => (ps a ++ fr).Perm before

/-- The nodes freed with a child at index `idx`, the child last, are those of the child and of
the later records. -/
lemma freed_perm (idx : Nat) {fr fr' cps rps : List (List Nat)} (hc : fr'.Perm cps)
    (hr : fr.Perm rps) :
    (fr ++ fr'.map (idx :: ·) ++ [[idx]]).Perm (([idx] :: cps.map (idx :: ·)) ++ rps) := by
  have h₁ : (fr ++ fr'.map (idx :: ·) ++ [[idx]]).Perm ([[idx]] ++ (fr'.map (idx :: ·) ++ fr)) :=
    List.perm_append_comm.trans (List.Perm.append_left _ List.perm_append_comm)
  have h₂ : (fr'.map (idx :: ·) ++ fr).Perm (cps.map (idx :: ·) ++ rps) := (hc.map _).append hr
  simpa using h₁.trans (List.Perm.append_left _ h₂)

/-- The nodes left and freed under a child at index `idx` that stopped are those of the child,
and the later records being freed, of those records. -/
lemma kept_perm (idx : Nat) {ps fr fr' cps rps : List (List Nat)} (hc : (ps ++ fr').Perm cps)
    (hr : fr.Perm rps) :
    (([idx] :: ps.map (idx :: ·)) ++ (fr ++ fr'.map (idx :: ·))).Perm
      (([idx] :: cps.map (idx :: ·)) ++ rps) := by
  have h₁ : (ps.map (idx :: ·) ++ (fr ++ fr'.map (idx :: ·))).Perm
      ((ps ++ fr').map (idx :: ·) ++ fr) := by
    rw [List.map_append, List.append_assoc]
    exact List.Perm.append_left _ List.perm_append_comm
  simpa using (h₁.trans ((hc.map _).append hr)).cons [idx]

mutual

theorem btreeTruncateNode_keeps (limit : Nat) :
    ∀ n : BNode K V, (btreeTruncateNode limit n).Keeps BNode.paths n.paths
  | .leaf _ => by simp [btreeTruncateNode, TruncUp.Keeps]
  | .inner lvl recs => by
    have ih := btreeTruncateRecs_keeps limit 0 recs
    rw [btreeTruncateNode]
    cases h : btreeTruncateRecs limit 0 recs with
    | stopped rs l fr =>
      rw [h] at ih
      simpa [TruncUp.Keeps] using ih
    | emptied l fr =>
      rw [h] at ih
      dsimp only
      split <;> simpa [TruncUp.Keeps] using ih

theorem btreeTruncateRecs_keeps (limit idx : Nat) :
    ∀ recs : List (K × BNode K V),
      (btreeTruncateRecs limit idx recs).Keeps (BNode.pathsF idx) (BNode.pathsF idx recs)
  | [] => by simp [btreeTruncateRecs, TruncUp.Keeps]
  | (k, c) :: rs => by
    have ihr := btreeTruncateRecs_keeps limit (idx + 1) rs
    rw [btreeTruncateRecs]
    cases hr : btreeTruncateRecs limit (idx + 1) rs with
    | stopped rs' l fr =>
      rw [hr] at ihr
      simpa [TruncUp.Keeps] using ihr.append_left ([idx] :: c.paths.map (idx :: ·))
    | emptied l fr =>
      rw [hr] at ihr
      have ihc := btreeTruncateNode_keeps l c
      cases hc : btreeTruncateNode l c with
      | stopped c' l' fr' =>
        rw [hc] at ihc
        simpa [hc, TruncUp.Keeps] using kept_perm idx ihc ihr
      | emptied l' fr' =>
        rw [hc] at ihc
        have hfreed := freed_perm idx ihc ihr
        simp only [hc]
        split_ifs <;> simpa [TruncUp.Keeps] using hfreed

end

/-- **The nodes of a call**: the nodes it frees and the nodes it leaves are, together, the
nodes of the tree before it, each as often. -/
theorem btreeTruncate_paths (limit : Nat) (t : Btree K V) :
    ((btreeTruncate limit t).1.root.paths ++ (btreeTruncate limit t).2).Perm t.root.paths := by
  have h := btreeTruncateNode_keeps limit t.root
  unfold btreeTruncate
  cases hn : btreeTruncateNode limit t.root with
  | stopped n l fr =>
    rw [hn] at h
    exact h
  | emptied l fr =>
    rw [hn] at h
    simpa [TruncUp.Keeps] using h

/-! ### Paths name nodes -/

namespace BNode

/-- The paths below the records from index `i` on start with an index from `i` on. -/
lemma mem_pathsF : ∀ {i : Nat} {recs : List (K × BNode K V)} {p : List Nat}, p ∈ pathsF i recs →
    ∃ j q, i ≤ j ∧ p = j :: q
  | _, [], _, hp => by simp at hp
  | i, (k, c) :: rs, p, hp => by
    rw [pathsF_cons, List.mem_append, List.mem_cons, List.mem_map] at hp
    rcases hp with (rfl | ⟨q, -, rfl⟩) | hp
    · exact ⟨i, [], le_rfl, rfl⟩
    · exact ⟨i, q, le_rfl, rfl⟩
    · obtain ⟨j, q, hj, rfl⟩ := mem_pathsF hp
      exact ⟨j, q, by omega, rfl⟩

lemma ne_nil_of_mem_paths {n : BNode K V} {p : List Nat} (hp : p ∈ n.paths) : p ≠ [] := by
  cases n with
  | leaf recs => simp at hp
  | inner l recs =>
    obtain ⟨j, q, -, rfl⟩ := mem_pathsF (by simpa using hp)
    simp

mutual

/-- **A path names one node.** -/
theorem paths_nodup : ∀ n : BNode K V, n.paths.Nodup
  | .leaf _ => by simp
  | .inner _ recs => by simpa using pathsF_nodup 0 recs

theorem pathsF_nodup (i : Nat) : ∀ recs : List (K × BNode K V), (pathsF i recs).Nodup
  | [] => by simp
  | (k, c) :: rs => by
    rw [pathsF_cons, List.nodup_append, List.nodup_cons]
    refine ⟨⟨fun hi => ?_, (paths_nodup c).map (List.cons_injective)⟩, pathsF_nodup (i + 1) rs,
      fun p hp p' hp' hpp => ?_⟩
    · -- `[i]` is not below child `i`, whose paths are not empty
      obtain ⟨q, hq, hqi⟩ := List.mem_map.mp hi
      exact ne_nil_of_mem_paths hq (List.cons_injective hqi)
    · -- the paths of the later records start past `i`
      obtain ⟨j, q, hj, rfl⟩ := mem_pathsF hp'
      subst hpp
      rcases List.mem_cons.mp hp with h | h
      · simp at h
        omega
      · obtain ⟨q', -, hq'⟩ := List.mem_map.mp h
        simp at hq'
        omega

end

end BNode

/-- **A freed node is not in the tree after the call**, and is freed once. -/
theorem btreeTruncate_freed_nodup (limit : Nat) (t : Btree K V) :
    ((btreeTruncate limit t).1.root.paths ++ (btreeTruncate limit t).2).Nodup :=
  (btreeTruncate_paths limit t).nodup_iff.mpr (BNode.paths_nodup t.root)

/-! ### The records a call keeps -/

/-- A truncation keeps a prefix of the records `before`, `cs` giving the records of what it
leaves. -/
def TruncUp.KeepsPrefix {α : Type} (cs : α → List (K × V)) (before : List (K × V)) :
    TruncUp α → Prop
  | .emptied _ _ => True
  | .stopped a _ _ => cs a <+: before

mutual

theorem btreeTruncateNode_prefix (limit : Nat) :
    ∀ n : BNode K V, (btreeTruncateNode limit n).KeepsPrefix BNode.contents n.contents
  | .leaf _ => by simp [btreeTruncateNode, TruncUp.KeepsPrefix]
  | .inner lvl recs => by
    have ih := btreeTruncateRecs_prefix limit 0 recs
    rw [btreeTruncateNode]
    cases h : btreeTruncateRecs limit 0 recs with
    | stopped rs l fr =>
      rw [h] at ih
      simpa [TruncUp.KeepsPrefix] using ih
    | emptied l fr =>
      dsimp only
      split <;> simp [TruncUp.KeepsPrefix]

theorem btreeTruncateRecs_prefix (limit idx : Nat) :
    ∀ recs : List (K × BNode K V),
      (btreeTruncateRecs limit idx recs).KeepsPrefix BNode.contentsF (BNode.contentsF recs)
  | [] => by simp [btreeTruncateRecs, TruncUp.KeepsPrefix]
  | (k, c) :: rs => by
    have ihr := btreeTruncateRecs_prefix limit (idx + 1) rs
    rw [btreeTruncateRecs]
    cases hr : btreeTruncateRecs limit (idx + 1) rs with
    | stopped rs' l fr =>
      rw [hr] at ihr
      simpa [TruncUp.KeepsPrefix] using ihr
    | emptied l fr =>
      have ihc := btreeTruncateNode_prefix l c
      cases hc : btreeTruncateNode l c with
      | stopped c' l' fr' =>
        rw [hc] at ihc
        simpa [hc, TruncUp.KeepsPrefix] using ihc.trans (List.prefix_append _ _)
      | emptied l' fr' =>
        simp only [hc]
        split_ifs <;> simp [TruncUp.KeepsPrefix]

end

/-- **A call keeps a prefix of the records**: it removes the greatest ones. -/
theorem btreeTruncate_contents (limit : Nat) (t : Btree K V) :
    (btreeTruncate limit t).1.contents <+: t.contents := by
  have h := btreeTruncateNode_prefix limit t.root
  unfold btreeTruncate Btree.contents
  cases hn : btreeTruncateNode limit t.root with
  | stopped n l fr =>
    rw [hn] at h
    exact h
  | emptied l fr => simp

/-! ### Repeated calls -/

/-- A truncation with a credit of at least `3` frees a node before it stops: only a leaf can
be emptied without one. -/
def TruncUp.Progress {α : Type} (limit : Nat) : TruncUp α → Prop
  | .emptied l fr => fr ≠ [] ∨ l = limit
  | .stopped _ _ fr => fr ≠ []

mutual

theorem btreeTruncateNode_progress {limit : Nat} (hl : 3 ≤ limit) :
    ∀ n : BNode K V, (btreeTruncateNode limit n).Progress limit
  | .leaf _ => by simp [btreeTruncateNode, TruncUp.Progress]
  | .inner lvl recs => by
    have ih := btreeTruncateRecs_progress hl 0 recs
    rw [btreeTruncateNode]
    cases h : btreeTruncateRecs limit 0 recs with
    | stopped rs l fr =>
      rw [h] at ih
      exact ih
    | emptied l fr =>
      rw [h] at ih
      dsimp only
      split
      · -- a node relabelled with no credit left has freed its children
        exact ih.resolve_right (by omega)
      · exact ih

theorem btreeTruncateRecs_progress {limit : Nat} (hl : 3 ≤ limit) (idx : Nat) :
    ∀ recs : List (K × BNode K V), (btreeTruncateRecs limit idx recs).Progress limit
  | [] => by simp [btreeTruncateRecs, TruncUp.Progress]
  | (k, c) :: rs => by
    have ihr := btreeTruncateRecs_progress hl (idx + 1) rs
    rw [btreeTruncateRecs]
    cases hr : btreeTruncateRecs limit (idx + 1) rs with
    | stopped rs' l fr =>
      rw [hr] at ihr
      exact ihr
    | emptied l fr =>
      rw [hr] at ihr
      cases hc : btreeTruncateNode l c with
      | stopped c' l' fr' =>
        simp only [hc, TruncUp.Progress]
        -- the later records freed a node, or the child, with all the credit, did
        rcases ihr with hfr | rfl
        · simp [hfr]
        · have ihc := btreeTruncateNode_progress hl c
          rw [hc] at ihc
          simp only [TruncUp.Progress] at ihc
          simp [ihc]
      | emptied l' fr' =>
        simp only [hc]
        split_ifs <;> simp [TruncUp.Progress]

end

/-- At index `0`, a truncation that stops leaves records: it stops only after a free that
left one. -/
lemma btreeTruncateRecs_zero_stopped {limit : Nat} {recs rs : List (K × BNode K V)} {l : Nat}
    {fr : List (List Nat)} (h : btreeTruncateRecs limit 0 recs = .stopped rs l fr) : rs ≠ [] := by
  cases recs with
  | nil => simp [btreeTruncateRecs] at h
  | cons r recs =>
    obtain ⟨k, c⟩ := r
    rw [btreeTruncateRecs] at h
    cases hr : btreeTruncateRecs limit 1 recs with
    | stopped rs' l' fr' =>
      rw [hr] at h
      cases h
      simp
    | emptied l' fr' =>
      cases hc : btreeTruncateNode l' c with
      | stopped c' l'' fr'' =>
        simp only [hr, hc] at h
        cases h
        simp
      | emptied l'' fr'' =>
        simp [hr, hc] at h

/-- A root a call leaves without records is an empty leaf. -/
lemma btreeTruncate_root_of_recCount {limit : Nat} {t : Btree K V}
    (h : (btreeTruncate limit t).1.root.recCount = 0) : (btreeTruncate limit t).1.root = .leaf [] := by
  unfold btreeTruncate at h ⊢
  cases hn : btreeTruncateNode limit t.root with
  | emptied l fr => rfl
  | stopped n l fr =>
    rw [hn] at h
    cases hroot : t.root with
    | leaf recs => simp [hroot, btreeTruncateNode] at hn
    | inner lvl recs =>
      rw [hroot, btreeTruncateNode] at hn
      cases hr : btreeTruncateRecs limit 0 recs with
      | stopped rs l' fr' =>
        rw [hr] at hn
        cases hn
        exact absurd (List.length_eq_zero_iff.mp h) (btreeTruncateRecs_zero_stopped hr)
      | emptied l' fr' =>
        rw [hr] at hn
        dsimp only at hn
        split at hn
        · cases hn
          rfl
        · cases hn

/-- A valid subtree without records is an empty leaf. -/
lemma WF.eq_leaf_nil [LinearOrder K] {h : Nat} {lo hi : Option K} {n : BNode K V}
    (hw : WF h lo hi n) (hn : n.recCount = 0) : n = .leaf [] := by
  cases n with
  | leaf recs => simpa using hn
  | inner lvl recs =>
    rw [BNode.recCount_inner, List.length_eq_zero_iff] at hn
    subst hn
    cases h with
    | zero => simp [WF] at hw
    | succ h => simp [WF, Chain] at hw

/-- Calls repeated from a tree whose root, without records, is an empty leaf, with more calls
than nodes below the root: the root ends an empty leaf, and every node below it is freed once. -/
lemma btreeTruncateAll_spec {limit : Nat} (hl : 3 ≤ limit) :
    ∀ (fuel : Nat) (t : Btree K V), (t.root.recCount ≠ 0 → t.root.paths.length < fuel) →
      (t.root.recCount = 0 → t.root = .leaf []) →
      ∃ fr, btreeTruncateAll limit fuel t = some (⟨.leaf [], t.height⟩, fr) ∧
        fr.Perm t.root.paths
  | fuel, t, hfuel, hroot => by
    by_cases h0 : t.root.recCount = 0
    · have hleaf := hroot h0
      refine ⟨[], ?_, by simp [hleaf]⟩
      unfold btreeTruncateAll
      rw [if_pos h0, ← hleaf]
    obtain ⟨f, rfl⟩ : ∃ f, fuel = f + 1 := ⟨fuel - 1, by have := hfuel h0; omega⟩
    set r := btreeTruncate limit t with hr
    have hperm : (r.1.root.paths ++ r.2).Perm t.root.paths := btreeTruncate_paths limit t
    -- the call frees a node, or leaves the root an empty leaf
    have hless : r.1.root.recCount ≠ 0 → r.1.root.paths.length < f := by
      intro hr0
      have hlen := hperm.length_eq
      rw [List.length_append] at hlen
      have hprog := btreeTruncateNode_progress hl t.root
      have hfr : r.2 ≠ [] := by
        rw [hr, btreeTruncate] at hr0 ⊢
        cases hn : btreeTruncateNode limit t.root with
        | stopped n l fr =>
          rw [hn] at hprog
          exact hprog
        | emptied l fr =>
          rw [hn] at hr0
          simp at hr0
      have := List.length_pos_of_ne_nil hfr
      have := hfuel h0
      omega
    obtain ⟨fr', hrun, hfr'⟩ := btreeTruncateAll_spec hl f r.1 hless btreeTruncate_root_of_recCount
    refine ⟨r.2 ++ fr', ?_, ?_⟩
    · have hh : r.1.height = t.height := btreeTruncate_height limit t
      unfold btreeTruncateAll
      simp only [if_neg h0, ← hr, hrun, Option.map_some, hh]
    · exact ((hfr'.append_left r.2).trans List.perm_append_comm).trans hperm

/-- **Truncating a valid tree to the end**: calls with a credit of at least `3`, repeated until
the root has no record, end within as many calls as the tree has nodes; the root is left an
empty leaf, `t_height` as it was, and every node below the root is freed exactly once. -/
theorem btreeTruncateAll_done [LinearOrder K] {limit : Nat} (hl : 3 ≤ limit) {t : Btree K V}
    (ht : t.Valid) :
    ∃ fr, btreeTruncateAll limit (t.root.paths.length + 1) t = some (⟨.leaf [], t.height⟩, fr) ∧
      fr.Perm t.root.paths ∧ fr.Nodup :=
  have ⟨fr, hrun, hfr⟩ := btreeTruncateAll_spec hl _ t (fun _ => Nat.lt_succ_self _)
    (ht.2.eq_leaf_nil)
  ⟨fr, hrun, hfr, hfr.nodup_iff.mpr (BNode.paths_nodup t.root)⟩

/-- **The calls of a truncation**: each call, on any tree, frees only nodes it leaves
unreachable, each once, and keeps a prefix of the records; on a valid tree, calls with a credit
of at least `3` repeated until the root has no record end within one call more than the tree
has nodes below the root, every one of them freed exactly once, the root left an empty leaf and
`t_height` as it was. -/
theorem btreeTruncateAll_frees_tree [LinearOrder K] {limit : Nat} (hl : 3 ≤ limit)
    {t : Btree K V} (ht : t.Valid) :
    (∀ u : Btree K V,
      ((btreeTruncate limit u).1.root.paths ++ (btreeTruncate limit u).2).Perm u.root.paths ∧
      ((btreeTruncate limit u).1.root.paths ++ (btreeTruncate limit u).2).Nodup ∧
      (btreeTruncate limit u).1.contents <+: u.contents) ∧
    ∃ fr, btreeTruncateAll limit (t.root.paths.length + 1) t = some (⟨.leaf [], t.height⟩, fr) ∧
      fr.Perm t.root.paths ∧ fr.Nodup :=
  ⟨fun u => ⟨btreeTruncate_paths limit u, btreeTruncate_freed_nodup limit u,
    btreeTruncate_contents limit u⟩, btreeTruncateAll_done hl ht⟩

/-- The theorem at the tree of two leaves that four puts build in nodes of three records. -/
theorem btreeTruncateAll_frees_tree_two_leaves :
    (∀ u : Btree Nat Nat,
      ((btreeTruncate 3 u).1.root.paths ++ (btreeTruncate 3 u).2).Perm u.root.paths ∧
      ((btreeTruncate 3 u).1.root.paths ++ (btreeTruncate 3 u).2).Nodup ∧
      (btreeTruncate 3 u).1.contents <+: u.contents) ∧
    ∃ fr, btreeTruncateAll 3 3
        ⟨.inner 1 [(3, .leaf [(1, 10), (2, 20)]), (3, .leaf [(3, 30), (4, 40)])], 2⟩ =
          some (⟨.leaf [], 2⟩, fr) ∧ fr.Perm [[0], [1]] ∧ fr.Nodup := by
  have hrun : btreeRun ⟨ffNodeType 704 104 92 96, fun _ => 92, fun _ => 96⟩
      [.put 1 10, .put 2 20, .put 3 30, .put 4 40] btreeCreate =
        some (⟨.inner 1 [(3, .leaf [(1, 10), (2, 20)]), (3, .leaf [(3, 30), (4, 40)])], 2⟩,
          [0, 0, 0, 0]) := by
    decide +kernel
  exact btreeTruncateAll_frees_tree (by decide) (btreeRun_ok _ _ btreeCreate_valid hrun).1

/-! ### A call that stops on a relabelled node -/

/-- The `ff` fit test of a root of `784` bytes and of the nodes `bnode_alloc` makes below it,
`m0_be_chunk_header_size()` = `80` bytes smaller, with the `104`-byte header of `struct ff_head`,
keys of `92` bytes and values of `96`: both hold three records at a leaf and six above it, so one
node type of `704` bytes makes every decision of the code. Fourteen puts build a tree of height
`3`. Four calls with a credit of `3` free the leaves under the last child of the root one by one,
the fourth relabelling that child an empty leaf: the tree is not valid, a leaf lying a level
above the others. The calls go on to an empty root leaf with `t_height` still `3`, which is not
valid either. -/
theorem btreeTruncate_breaks_invariant :
    (∀ lvl recs i r, (ffNodeType 784 104 92 96).isfit lvl recs i r =
      (ffNodeType 704 104 92 96).isfit lvl recs i r) ∧
    (∀ lvl recs i r, (ffNodeType 784 104 92 96).isoverflow lvl recs i r =
      (ffNodeType 704 104 92 96).isoverflow lvl recs i r) ∧
    btreeRun ⟨ffNodeType 704 104 92 96, fun _ => 92, fun _ => 96⟩
        ((List.range 14).map fun i => .put (i + 1) (10 * (i + 1))) btreeCreate =
      some (⟨.inner 2 [(7, .inner 1 [(3, .leaf [(1, 10), (2, 20)]),
          (5, .leaf [(3, 30), (4, 40)]), (7, .leaf [(5, 50), (6, 60)])]),
        (7, .inner 1 [(9, .leaf [(7, 70), (8, 80)]), (11, .leaf [(9, 90), (10, 100)]),
          (13, .leaf [(11, 110), (12, 120)]), (3, .leaf [(13, 130), (14, 140)])])], 3⟩,
        List.replicate 14 0) ∧
    (btreeTruncate 3 (btreeTruncate 3 (btreeTruncate 3 (btreeTruncate 3
        ⟨.inner 2 [(7, .inner 1 [(3, .leaf [(1, 10), (2, 20)]),
          (5, .leaf [(3, 30), (4, 40)]), (7, .leaf [(5, 50), (6, 60)])]),
        (7, .inner 1 [(9, .leaf [(7, 70), (8, 80)]), (11, .leaf [(9, 90), (10, 100)]),
          (13, .leaf [(11, 110), (12, 120)]), (3, .leaf [(13, 130), (14, 140)])])], 3⟩).1).1).1).1 =
      ⟨.inner 2 [(7, .inner 1 [(3, .leaf [(1, 10), (2, 20)]),
        (5, .leaf [(3, 30), (4, 40)]), (7, .leaf [(5, 50), (6, 60)])]), (7, .leaf [])], 3⟩ ∧
    ¬ (⟨.inner 2 [(7, .inner 1 [(3, .leaf [((1 : Nat), (10 : Nat)), (2, 20)]),
        (5, .leaf [(3, 30), (4, 40)]), (7, .leaf [(5, 50), (6, 60)])]), (7, .leaf [])], 3⟩ :
        Btree Nat Nat).Valid ∧
    (btreeTruncateAll 3 10 ⟨.inner 2 [(7, .inner 1 [(3, .leaf [((1 : Nat), (10 : Nat)), (2, 20)]),
          (5, .leaf [(3, 30), (4, 40)]), (7, .leaf [(5, 50), (6, 60)])]),
        (7, .inner 1 [(9, .leaf [(7, 70), (8, 80)]), (11, .leaf [(9, 90), (10, 100)]),
          (13, .leaf [(11, 110), (12, 120)]), (3, .leaf [(13, 130), (14, 140)])])], 3⟩).map
        (·.1) = some ⟨.leaf [], 3⟩ ∧
    ¬ (⟨.leaf [], 3⟩ : Btree Nat Nat).Valid := by
  -- a record takes `92 + 96` bytes at a leaf and `92 + 8` above it; `600` and `680` bytes
  -- after the header hold as many of either
  have hfit : ∀ lvl (recs : List (Nat × Nat)),
      (ffNodeType 784 104 92 96).space lvl recs < (92 + ffValsize 96 lvl : Nat) ↔
        (ffNodeType 704 104 92 96).space lvl recs < (92 + ffValsize 96 lvl : Nat) := by
    intro lvl recs
    simp only [ffNodeType, ffSpace, ffValsize, INTERNAL_NODE_VALUE_SIZE]
    split_ifs <;> push_cast <;> omega
  refine ⟨fun lvl recs _ _ => ?_, fun lvl recs _ _ => ?_, by decide +kernel, by decide +kernel,
    ?_, by decide +kernel, by simp [Btree.Valid, WF]⟩
  · simpa only [ffNodeType, decide_eq_decide, not_lt] using not_congr (hfit lvl recs)
  · simpa only [ffNodeType, decide_eq_decide] using hfit lvl recs
  · -- the empty child of the root is not a subtree of height `1`
    simp [Btree.Valid, WF, Chain]

end Motr
