import Amaru.Kernel.Basic
import Mathlib.Data.Finset.Basic
import Mathlib.Data.List.Perm.Basic
import Mathlib.Logic.Relation

/-!
# Trees of proposals

Proposals of one purpose form a tree: the root is the last enacted proposal, and a node's children
are the proposals that name it as their parent. The tree is generic in the type of identifiers.

A tree is read through its **edges**, the list of its identifiers each with the parent it was
inserted under. Three facts say what the operations do to them, and everything later rests on these:

* `insert_edges`: a successful insertion adds one edge, and its parent is the root or a node;
* `exists_insert`: an insertion whose parent is the root or a node succeeds;
* `enact_edges`: enacting a node splits the edges in three: the node's own, those of its
  descendants, which stay, and those of the nodes made obsolete, which are exactly the pruned ones.

An assertion of the source that fails is an error value here; `reinserted` is the only one.
-/

namespace Amaru

open List Except Prod List.Perm

variable {T : Type*} [DecidableEq T] {x : T}

/-- A node and the nodes below it. -/
inductive Sibling (T : Type*)
  | mk (id : T) (children : List (Sibling T))

/-- The parent of an inserted node was not found. -/
inductive SiblingInsertError (T : Type*)
  | unknownParent (id parent : T)
deriving DecidableEq

/-- Why an insertion failed. -/
inductive ProposalsInsertError (T : Type*)
  | unknownParent (id : T) (parent : Option T)
  | internalSlotToEpochError (slot : ℕ)
  /-- The source asserts that an identifier is inserted at most once. -/
  | reinserted (id : T)
  /-- The source asserts that an inserted proposal has not expired. -/
  | expired (id : T) (validUntil : ℕ)
deriving DecidableEq

/-- Why an enactment failed. -/
inductive ProposalsEnactError (T : Type*)
  | unknownProposal (id : T)
deriving DecidableEq

namespace Sibling

/-- The identifier of a node. -/
def id : Sibling T → T
  | mk id _ => id

/-- The nodes right below a node. -/
def children : Sibling T → List (Sibling T)
  | mk _ children => children

mutual

/-- Insert a node under a parent, searching depth first. -/
def insert (id parent : T) : Sibling T → Except (SiblingInsertError T) (Sibling T)
  | mk self children =>
    if self = parent then .ok (mk self (children ++ [mk id []]))
    else (insertAmong id parent children).map (mk self)

/-- Insert a node in the first of several subtrees that knows its parent. -/
def insertAmong (id parent : T) : List (Sibling T) → Except (SiblingInsertError T) (List (Sibling T))
  | [] => .error (.unknownParent id parent)
  | child :: rest =>
    match child.insert id parent with
    | .ok child => .ok (child :: rest)
    | .error _ => (insertAmong id parent rest).map (child :: ·)

end

/-- Split nodes on the one with a given identifier. -/
def partition (nodes : List (Sibling T)) (pivot : T) : Option (Sibling T) × List (Sibling T) :=
  nodes.foldl
    (fun acc sibling ↦
      if sibling.id = pivot then (some sibling, acc.2) else (acc.1, acc.2 ++ [sibling]))
    (none, [])

mutual

/-- The identifiers of a node and of its descendants. -/
def ids : Sibling T → List T
  | mk id children => id :: collectAll children

/-- The identifiers of several nodes and of their descendants. -/
def collectAll : List (Sibling T) → List T
  | [] => []
  | s :: nodes => s.ids ++ collectAll nodes

end

mutual

/-- The edges of a node hanging under `parent`. -/
def edges (parent : Option T) : Sibling T → List (T × Option T)
  | mk id children => (id, parent) :: edgesAmong (some id) children

/-- The edges of several nodes hanging under `parent`. -/
def edgesAmong (parent : Option T) : List (Sibling T) → List (T × Option T)
  | [] => []
  | s :: nodes => s.edges parent ++ edgesAmong parent nodes

end

omit [DecidableEq T] in
@[simp] theorem edgesAmong_append (parent : Option T) (l m : List (Sibling T)) :
    edgesAmong parent (l ++ m) = edgesAmong parent l ++ edgesAmong parent m := by
  induction l with
  | nil => rfl
  | cons s l ih => simp [edgesAmong, ih]

omit [DecidableEq T] in
mutual

theorem edges_map_fst (parent : Option T) : ∀ s : Sibling T, (s.edges parent).map fst = s.ids
  | mk id children => by simp [edges, ids, edgesAmong_map_fst (some id) children]

theorem edgesAmong_map_fst (parent : Option T) :
    ∀ l : List (Sibling T), (edgesAmong parent l).map fst = collectAll l
  | [] => rfl
  | s :: l => by simp [edgesAmong, collectAll, edges_map_fst parent s, edgesAmong_map_fst parent l]

end

omit [DecidableEq T] in
theorem edgesAmong_perm (parent : Option T) {l m} (h : l.Perm m) :
    (edgesAmong parent l).Perm (edgesAmong parent m) := by
  induction h with
  | nil => exact .nil
  | cons s _ ih => exact ih.append_left _
  | swap s t l =>
    simp only [edgesAmong, ← append_assoc]
    exact perm_append_comm.append_right _
  | trans _ _ ih₁ ih₂ => exact ih₁.trans ih₂

omit [DecidableEq T] in
mutual

variable {parent : Option T}

/-- The parent of an edge below a node is the node's own parent, or one of the nodes. -/
theorem parent_of_mem_edges {root} :
    ∀ {s : Sibling T}, (x, parent) ∈ s.edges root → parent = root ∨ ∃ p ∈ s.ids, parent = some p
  | mk id children, h => by
    rcases mem_cons.1 h with h | h
    · exact .inl (Prod.mk.inj h).2
    · rcases parent_of_mem_edgesAmong h with rfl | ⟨p, hp, rfl⟩
      · exact .inr ⟨id, mem_cons_self, rfl⟩
      · exact .inr ⟨p, mem_cons_of_mem _ hp, rfl⟩

theorem parent_of_mem_edgesAmong {root} :
    ∀ {l : List (Sibling T)}, (x, parent) ∈ edgesAmong root l →
      parent = root ∨ ∃ p ∈ collectAll l, parent = some p
  | [], h => absurd h (not_mem_nil)
  | s :: l, h => by
    rcases mem_append.1 h with h | h
    · exact (parent_of_mem_edges h).imp_right fun ⟨p, hp, hpar⟩ ↦
        ⟨p, mem_append_left _ hp, hpar⟩
    · exact (parent_of_mem_edgesAmong h).imp_right fun ⟨p, hp, hpar⟩ ↦
        ⟨p, mem_append_right _ hp, hpar⟩

end

omit [DecidableEq T] in
mutual

variable {r : T → T → Prop}

theorem transGen_of_mem_ids : ∀ {s : Sibling T} {a},
    (∀ {y p}, (y, some p) ∈ s.edges (some a) → r p y) → x ∈ s.ids → Relation.TransGen r a x
  | mk id children, a, hr, hx => by
    have hid : r a id := hr mem_cons_self
    rcases mem_cons.1 hx with rfl | hx
    · exact .single hid
    · exact .head hid (transGen_of_mem_collectAll (fun he ↦ hr (mem_cons_of_mem _ he)) hx)

theorem transGen_of_mem_collectAll : ∀ {l : List (Sibling T)} {a : T},
    (∀ {y p}, (y, some p) ∈ edgesAmong (some a) l → r p y) → x ∈ collectAll l → Relation.TransGen r a x
  | [], a, hr, hx => absurd hx not_mem_nil
  | s :: l, a, hr, hx => by
    rcases mem_append.1 hx with hx | hx
    · exact transGen_of_mem_ids (fun he ↦ hr (mem_append_left _ he)) hx
    · exact transGen_of_mem_collectAll (fun he ↦ hr (mem_append_right _ he)) hx

end

omit [DecidableEq T] in
theorem map_id_sublist : ∀ l : List (Sibling T), (l.map Sibling.id).Sublist (collectAll l)
  | [] => .slnil
  | mk id children :: l => by
    exact ((map_id_sublist l).trans (sublist_append_right _ _)).cons_cons id

/-! ### Insertion below a node -/

mutual

/-- Inserting below a node adds the edge to the parent, which is one of the nodes. -/
theorem insert_perm {id parent : T} : ∀ {s s' : Sibling T}, s.insert id parent = .ok s' →
    parent ∈ s.ids ∧ ∀ root, (s'.edges root).Perm ((id, some parent) :: s.edges root)
  | mk self children, s', h => by
    rw [insert] at h
    split_ifs at h with hself
    · cases h
      subst hself
      refine ⟨by simp [ids], fun root ↦ ?_⟩
      simp only [edges, edgesAmong_append, edgesAmong, append_nil]
      exact (perm_append_singleton _ _).cons _ |>.trans (swap ..)
    · rcases hins : insertAmong id parent children with e | children'
      · simp [hins, Except.map] at h
      · obtain rfl : mk self children' = s' := by simpa [hins, Except.map] using h
        obtain ⟨hmem, hperm⟩ := insertAmong_perm hins
        refine ⟨mem_cons_of_mem _ hmem, fun root ↦ ?_⟩
        exact ((hperm (some self)).cons _).trans (swap ..)

theorem insertAmong_perm {id parent : T} : ∀ {l l' : List (Sibling T)},
    insertAmong id parent l = .ok l' →
      parent ∈ collectAll l ∧ ∀ root, (edgesAmong root l').Perm ((id, some parent) :: edgesAmong root l)
  | [], l', h => by simp [insertAmong] at h
  | s :: l, l', h => by
    rw [insertAmong] at h
    rcases hs : s.insert id parent with e | s'
    · rcases hl : insertAmong id parent l with e | m
      · simp [hs, hl, Except.map] at h
      · obtain rfl : s :: m = l' := by simpa [hs, hl, Except.map] using h
        obtain ⟨hmem, hperm⟩ := insertAmong_perm hl
        refine ⟨mem_append_right _ hmem, fun root ↦ ?_⟩
        exact ((hperm root).append_left _).trans perm_middle
    · obtain rfl : s' :: l = l' := by simpa [hs] using h
      obtain ⟨hmem, hperm⟩ := insert_perm hs
      exact ⟨mem_append_left _ hmem, fun root ↦ (hperm root).append_right _⟩

end

mutual

/-- Inserting below a node only fails if the parent is none of the nodes. -/
theorem exists_insert {id parent : T} : ∀ {s : Sibling T}, parent ∈ s.ids → ∃ s', s.insert id parent = .ok s'
  | mk self children, h => by
    rw [insert]
    split_ifs with hself
    · exact ⟨_, rfl⟩
    · have hmem : parent ∈ collectAll children :=
        (mem_cons.1 h).resolve_left (Ne.symm hself)
      obtain ⟨children', hins⟩ := exists_insertAmong hmem
      exact ⟨mk self children', by rw [hins]; rfl⟩

/-- Inserting among several nodes only fails if the parent is none of them. -/
theorem exists_insertAmong {id parent : T} : ∀ {l : List (Sibling T)}, parent ∈ collectAll l →
    ∃ l', insertAmong id parent l = .ok l'
  | [], h => by simp [collectAll] at h
  | s :: l, h => by
    rw [insertAmong]
    rcases hs : s.insert id parent with e | s'
    · have hmem : parent ∈ collectAll l := by
        refine (mem_append.1 h).resolve_left fun hin ↦ ?_
        obtain ⟨s', hs'⟩ : ∃ s', s.insert id parent = .ok s' := exists_insert hin
        exact absurd (hs.symm.trans hs') (by simp)
      obtain ⟨l', hl⟩ := exists_insertAmong hmem
      exact ⟨s :: l', by rw [hl]; rfl⟩
    · exact ⟨s' :: l, rfl⟩

end

/-! ### Splitting on a node -/

/-- Among nodes of distinct identifiers, the split finds the pivot and keeps all the others. -/
theorem perm_of_partition {pivot : T} {nodes : List (Sibling T)} {s : Sibling T}
    {rest : List (Sibling T)} (hnodup : (nodes.map Sibling.id).Nodup)
    (h : partition nodes pivot = (some s, rest)) : s.id = pivot ∧ nodes.Perm (s :: rest) := by
  -- the loop invariant: what was found and what was kept, against the nodes seen so far
  have hloop : ∀ (l : List (Sibling T)) (acc : Option (Sibling T) × List (Sibling T)),
      (∀ found ∈ acc.1, found.id = pivot) → ((acc.1.toList ++ l).map Sibling.id).Nodup →
      ∀ {res : Option (Sibling T) × List (Sibling T)}, l.foldl (fun acc sibling ↦
          if sibling.id = pivot then (some sibling, acc.2) else (acc.1, acc.2 ++ [sibling]))
          acc = res →
        (∀ found ∈ res.1, found.id = pivot) ∧ (acc.1.toList ++ acc.2 ++ l).Perm (res.1.toList ++ res.2) := by
    intro l
    induction l with
    | nil =>
      rintro acc hacc - res rfl
      exact ⟨hacc, by simp⟩
    | cons a l ih =>
      rintro ⟨found, kept⟩ hacc hnd res hres
      rw [foldl_cons] at hres
      by_cases ha : a.id = pivot
      · -- a pivot found earlier would have the same identifier
        obtain rfl : found = none := by
          rw [Option.eq_none_iff_forall_not_mem]
          rintro s' rfl
          have hs' : s'.id = a.id := (hacc s' rfl).trans ha.symm
          simp [hs'] at hnd
        rw [if_pos ha] at hres
        obtain ⟨hid, hperm⟩ := ih (some a, kept) (by simpa using ha) (by simpa using hnd) hres
        exact ⟨hid, perm_middle.trans hperm⟩
      · rw [if_neg ha] at hres
        obtain ⟨hid, hperm⟩ := ih (found, kept ++ [a]) hacc
          (hnd.sublist (((sublist_cons_self a l).append_left _).map _)) hres
        exact ⟨hid, by simpa using hperm⟩
  obtain ⟨hid, hperm⟩ := hloop nodes (none, []) (by simp) (by simpa using hnodup) h
  exact ⟨hid s rfl, by simpa using hperm⟩

theorem isSome_partition {pivot : T} (nodes : List (Sibling T)) :
    (partition nodes pivot).1.isSome ↔ pivot ∈ nodes.map Sibling.id := by
  have hloop : ∀ (l : List (Sibling T)) (acc : Option (Sibling T) × List (Sibling T)),
      (l.foldl (fun acc sibling ↦
        if sibling.id = pivot then (some sibling, acc.2) else (acc.1, acc.2 ++ [sibling])) acc).1.isSome ↔
        acc.1.isSome ∨ pivot ∈ l.map Sibling.id := by
    intro l
    induction l with
    | nil => simp
    | cons a l ih =>
      intro acc
      rw [foldl_cons, ih, map_cons, mem_cons]
      split_ifs with ha
      · simp [ha]
      · simp [Ne.symm ha]
  simpa [partition] using hloop nodes (none, [])

end Sibling

/-- A tree of proposals of one purpose. -/
structure ProposalsTree (T : Type*) where
  /-- The last enacted proposal, if any. -/
  root : Option T
  /-- The proposals whose parent is the root. -/
  siblings : List (Sibling T)
  /-- The identifiers inserted so far, and the initial root. -/
  seen : Finset T

namespace ProposalsTree

variable {t t' : ProposalsTree T} {parent : Option T} {id' : T} {pruned : List T}

/-- A tree without proposals. -/
def new (root : Option T) : ProposalsTree T where
  root
  siblings := []
  seen := root.elim ∅ fun root ↦ {root}

section

variable (t : ProposalsTree T)

/-- Enact a proposal as new root; returns it with the proposals rendered obsolete. -/
def enact (id : T) : Except (ProposalsEnactError T) (ProposalsTree T × T × List T) :=
  match Sibling.partition t.siblings id with
  | (none, _) => .error (.unknownProposal id)
  | (some newRoot, nowObsolete) =>
    .ok ({ root := some newRoot.id, siblings := newRoot.children, seen := t.seen.erase id },
      id, Sibling.collectAll nowObsolete)

/-- Insert a proposal that was not inserted before. -/
def insert (id : T) (parent : Option T) : Except (ProposalsInsertError T) (ProposalsTree T) :=
  if id ∈ t.seen then .error (.reinserted id)
  else
    let seen := Insert.insert id t.seen
    match t.root, parent with
    | some _, none => .error (.unknownParent id none)
    | none, none => .ok { t with siblings := t.siblings ++ [.mk id []], seen }
    | root, some parent =>
      if root = some parent then .ok { t with siblings := t.siblings ++ [.mk id []], seen }
      else
        match Sibling.insertAmong id parent t.siblings with
        | .ok siblings => .ok { t with siblings, seen }
        | .error (.unknownParent id parent) => .error (.unknownParent id (some parent))

/-- The edges of a tree: every identifier with the parent it hangs under. -/
def edges : List (T × Option T) := Sibling.edgesAmong t.root t.siblings

/-- The identifiers of a tree, the root excepted. -/
def ids : List T := t.edges.map fst

/-- A parent an insertion accepts: the root, or a node. -/
def Knows (parent : Option T) : Prop :=
  parent = t.root ∨ ∃ p ∈ t.ids, parent = some p

omit [DecidableEq T] in
theorem ids_eq_collectAll : t.ids = Sibling.collectAll t.siblings :=
  Sibling.edgesAmong_map_fst _ _

end

omit [DecidableEq T] in
theorem knows_of_mem_edges (h : (x, parent) ∈ t.edges) : t.Knows parent := by
  rw [Knows, ids_eq_collectAll]
  exact Sibling.parent_of_mem_edgesAmong h

omit [DecidableEq T] in
theorem edges_push (t : ProposalsTree T) (id : T) (seen : Finset T) :
    ({ t with siblings := t.siblings ++ [.mk id []], seen := seen } : ProposalsTree T).edges.Perm
      ((id, t.root) :: t.edges) := by
  simp only [edges, Sibling.edgesAmong_append]
  exact perm_append_singleton _ _

/-- **What an insertion does.** It adds one edge; the parent is the root or a node. -/
theorem insert_edges {id : T} (h : t.insert id parent = .ok t') :
    t'.edges.Perm ((id, parent) :: t.edges) ∧ t'.root = t.root ∧ t.Knows parent ∧
      id ∉ t.seen ∧ t'.seen = Insert.insert id t.seen := by
  rw [insert] at h
  split_ifs at h with hseen
  split at h
  · simp at h
  · next hroot =>
    cases h
    exact ⟨hroot ▸ t.edges_push id _, rfl, .inl hroot.symm, hseen, rfl⟩
  next parent =>
  split_ifs at h with hroot
  · cases h
    exact ⟨hroot ▸ t.edges_push id _, rfl, .inl hroot.symm, hseen, rfl⟩
  rcases hins : Sibling.insertAmong id parent t.siblings with e | siblings
  · simp [hins] at h
  · obtain ⟨hmem, hperm⟩ := Sibling.insertAmong_perm hins
    obtain rfl := ok.inj (hins ▸ h)
    refine ⟨hperm t.root, rfl, .inr ⟨parent, ?_, rfl⟩, hseen, rfl⟩
    rwa [ids_eq_collectAll]

/-- **When an insertion succeeds.** -/
theorem exists_insert {id : T} (hseen : id ∉ t.seen) (hknows : t.Knows parent) :
    ∃ t', t.insert id parent = .ok t' := by
  rw [insert, if_neg hseen]
  rcases hknows with rfl | ⟨p, hp, rfl⟩
  · rcases hroot : t.root with - | r
    · exact ⟨_, rfl⟩
    · exact ⟨_, by simp; rfl⟩
  rw [ids_eq_collectAll] at hp
  obtain ⟨siblings, hins⟩ : ∃ siblings, Sibling.insertAmong id p t.siblings = .ok siblings :=
    Sibling.exists_insertAmong hp
  by_cases hroot : t.root = some p
  · exact ⟨_, by simp [hroot]; rfl⟩
  · exact ⟨{ t with siblings, seen := Insert.insert id t.seen }, by simp [hroot, hins]⟩

/-- An insertion that does not know its parent was given neither the root nor a node. -/
theorem not_knows_of_insert {id : T} {parent' : Option T}
    (h : t.insert id parent = .error (.unknownParent id' parent')) : ¬ t.Knows parent := by
  intro hknows
  by_cases hseen : id ∈ t.seen
  · rw [insert, if_pos hseen] at h
    simp at h
  · obtain ⟨t', ht'⟩ := exists_insert hseen hknows
    rw [ht'] at h
    simp at h

theorem enact_id {id : T} (h : t.enact id = .ok (t', id', pruned)) : id' = id := by
  rw [enact] at h
  split at h
  · simp at h
  · simp only [ok.injEq, Prod.mk.injEq] at h
    exact h.2.1.symm

/-- **What an enactment does.** The node leaves, its descendants stay, and the pruned nodes are the
rest. -/
theorem enact_edges {id : T} (hnodup : t.ids.Nodup)
    (h : t.enact id = .ok (t', id', pruned)) :
    t'.root = some id ∧ ∃ obsolete : List (T × Option T),
      t.edges.Perm ((id, t.root) :: (t'.edges ++ obsolete)) ∧ pruned = obsolete.map Prod.fst ∧
        ∀ {x parent}, (x, parent) ∈ obsolete → parent = t.root ∨ ∃ p ∈ pruned, parent = some p := by
  rw [enact] at h
  rcases hpart : Sibling.partition t.siblings id with ⟨found, nowObsolete⟩
  rcases found with - | newRoot
  · simp [hpart] at h
  rw [ids_eq_collectAll] at hnodup
  obtain ⟨hid, hperm⟩ := Sibling.perm_of_partition (hnodup.sublist (Sibling.map_id_sublist t.siblings)) hpart
  simp only [hpart, ok.injEq, Prod.mk.injEq] at h
  obtain ⟨rfl, rfl, rfl⟩ := h
  refine ⟨by rw [hid], Sibling.edgesAmong t.root nowObsolete, ?_, (Sibling.edgesAmong_map_fst _ _).symm,
    Sibling.parent_of_mem_edgesAmong⟩
  refine (Sibling.edgesAmong_perm t.root hperm).trans ?_
  rcases newRoot with ⟨self, children⟩
  obtain rfl : self = id := hid
  exact List.Perm.refl _

theorem exists_enact (t : ProposalsTree T) {id : T} :
    (∃ result, t.enact id = .ok result) ↔ id ∈ t.siblings.map Sibling.id := by
  rw [← Sibling.isSome_partition, enact]
  rcases Sibling.partition t.siblings id with ⟨_ | _, _⟩ <;> simp

/-! ### Trees that are built -/

/-- The trees there are: a proposal is inserted once, and not after it was enacted. -/
inductive Built : ProposalsTree T → Prop
  | new (root : Option T) : Built (new root)
  | insert {t t' id parent} (ht : Built t) (hroot : t.root ≠ some id) (h : t.insert id parent = .ok t') :
    Built t'
  | enact {t t' id result} (ht : Built t) (h : t.enact id = .ok (t', result)) : Built t'

/-- In a tree that is built, each proposal is at one place. -/
structure Distinct (t : ProposalsTree T) : Prop where
  nodup_ids : t.ids.Nodup
  root_notMem : ∀ {root}, t.root = some root → root ∉ t.ids
  mem_seen : ∀ {x}, x ∈ t.ids → x ∈ t.seen

theorem Distinct.ids_enact {id : T} (ht : t.Distinct)
    (h : t.enact id = .ok (t', id', pruned)) :
    t.ids.Perm (id :: (t'.ids ++ pruned)) ∧ (id :: (t'.ids ++ pruned)).Nodup := by
  obtain ⟨-, obsolete, hperm, rfl, -⟩ := enact_edges ht.nodup_ids h
  have hids : t.ids.Perm (id :: (t'.ids ++ obsolete.map fst)) := by simpa [ids] using hperm.map fst
  exact ⟨hids, hids.nodup_iff.1 ht.nodup_ids⟩

theorem Built.distinct (ht : Built t) : t.Distinct := by
  induction ht with
  | new root => exact ⟨nodup_nil, fun _ ↦ not_mem_nil, fun h ↦ absurd h not_mem_nil⟩
  | @insert t t' id parent _ hroot h ih =>
    obtain ⟨hperm, hroot', -, hnew, hseen⟩ := insert_edges h
    have hids : t'.ids.Perm (id :: t.ids) := by simpa [ids] using hperm.map fst
    refine ⟨hids.nodup_iff.2 (nodup_cons.2 ⟨fun hin ↦ hnew (ih.mem_seen hin), ih.nodup_ids⟩),
      fun hr hin ↦ ?_, fun hin ↦ ?_⟩
    · rw [hroot'] at hr
      rcases mem_cons.1 (hids.subset hin) with rfl | hin
      · exact hroot hr
      · exact ih.root_notMem hr hin
    · rw [hseen, Finset.mem_insert]
      exact (mem_cons.1 (hids.subset hin)).imp_right ih.mem_seen
  | @enact t t' id result _ h ih =>
    obtain ⟨hperm, hnodup⟩ := ih.ids_enact h
    have hid : id ∉ t'.ids := fun hin ↦ (nodup_cons.1 hnodup).1 (mem_append_left _ hin)
    refine ⟨(nodup_append.1 (nodup_cons.1 hnodup).2).1, fun hr ↦ ?_, fun {x} hin ↦ ?_⟩
    · rw [(enact_edges ih.nodup_ids h).1] at hr
      exact Option.some.inj hr ▸ hid
    · have hseen : t'.seen = t.seen.erase id := by
        rw [ProposalsTree.enact] at h
        split at h
        · cases h
        · cases h
          rfl
      rw [hseen, Finset.mem_erase]
      exact ⟨fun hx ↦ hid (hx ▸ hin),
        ih.mem_seen (hperm.symm.subset (mem_cons_of_mem _ (mem_append_left _ hin)))⟩

/-- Being a child of a node. -/
def IsChild (t : ProposalsTree T) (parent x : T) : Prop := (x, some parent) ∈ t.edges

/-- **What stays is what descends from the enacted proposal.** -/
theorem Distinct.mem_ids_enact {id : T} (ht : t.Distinct)
    (h : t.enact id = .ok (t', id', pruned)) : x ∈ t'.ids ↔ Relation.TransGen t.IsChild id x := by
  obtain ⟨hroot, obsolete, hperm, hpruned, hparent⟩ := enact_edges ht.nodup_ids h
  obtain ⟨hids, hnodup⟩ := ht.ids_enact h
  obtain ⟨hid, hnodup⟩ := nodup_cons.1 hnodup
  constructor
  · intro hx
    rw [ids_eq_collectAll] at hx
    refine Sibling.transGen_of_mem_collectAll (fun he ↦ ?_) hx
    rw [← hroot] at he
    exact hperm.symm.subset (mem_cons_of_mem _ (mem_append_left _ he))
  · -- the children of the enacted proposal, and of what stays, stay
    have hchild : ∀ {a b}, a = id ∨ a ∈ t'.ids → t.IsChild a b → b ∈ t'.ids := by
      intro a b ha hab
      have hin : a ∈ t.ids := hids.symm.subset (by simp only [mem_cons, mem_append]; tauto)
      have hnotroot : some a ≠ t.root := fun hr ↦ ht.root_notMem hr.symm hin
      rcases mem_cons.1 (hperm.subset hab) with heq | hmem
      · exact absurd (Prod.mk.inj heq).2 hnotroot
      rcases mem_append.1 hmem with hkept | hobsolete
      · exact mem_map_of_mem hkept
      · obtain ⟨p, hp, heq⟩ := (hparent hobsolete).resolve_left hnotroot
        obtain rfl := Option.some.inj heq
        rcases ha with rfl | ha
        · exact absurd (mem_append_right _ hp) hid
        · exact absurd hp (disjoint_of_nodup_append hnodup ha)
    intro hx
    induction hx with
    | single hab => exact hchild (.inl rfl) hab
    | tail _ hab ih => exact hchild (.inr ih) hab

end ProposalsTree

end Amaru
