import Gavel.Cluster.Theorems.Roles

/-!
# The first spread of roles

One cursor runs over the nodes while the minimums are placed role after role. Its scan wraps round, so
a role finds every node that can still hold it, and while the cursor has not gone round once every
placement lands on a node that has no role but compute.
-/

namespace Gavel.Cluster

/-! ## A scan that wraps round -/

theorem exists_offset {n i : Nat} (cursor : Nat) (hi : i < n) :
    ∃ offset < n, (cursor + offset) % n = i := by
  have hc : cursor % n < n := Nat.mod_lt _ (by omega)
  have hsplit := Nat.div_add_mod cursor n
  rcases Nat.le_total (cursor % n) i with h | h
  · refine ⟨i - cursor % n, by omega, ?_⟩
    have hsum : cursor + (i - cursor % n) = n * (cursor / n) + i := by omega
    rw [hsum, Nat.mul_add_mod, Nat.mod_eq_of_lt hi]
  · rcases Nat.eq_or_lt_of_le h with h | h
    · refine ⟨0, by omega, ?_⟩
      simpa using h.symm
    · refine ⟨n - cursor % n + i, by omega, ?_⟩
      have hsum : cursor + (n - cursor % n + i) = n * (cursor / n + 1) + i := by
        rw [Nat.mul_add_one]
        omega
      rw [hsum, Nat.mul_add_mod, Nat.mod_eq_of_lt hi]

/-! ## One placement -/

/-- The list names the nodes of the table, each once. -/
structure Lists (ids : List NodeId) (nodes : Table NodeEntry) : Prop where
  nodup : ids.Nodup
  mem : ∀ id : NodeId, id ∈ ids ↔ ∃ e, nodes[id]? = some e
  size : nodes.size = ids.length

section Placing

variable {role : Role} {ids : List NodeId} {cursor : Nat} {nodes : Table NodeEntry}

theorem Lists.insert (h : Lists ids nodes) {id : NodeId} {e e' : NodeEntry}
    (he : nodes[id]? = some e) : Lists ids (nodes.insert id e') := by
  have hmem : id ∈ nodes := Std.TreeMap.mem_iff_isSome_getElem?.mpr (by rw [he]; rfl)
  refine ⟨h.nodup, fun a => ?_, ?_⟩
  · rw [h.mem, Table.get_insert]
    split
    · subst a
      exact ⟨fun _ => ⟨e', rfl⟩, fun _ => ⟨e, he⟩⟩
    · rfl
  · rw [Std.TreeMap.size_insert, if_pos (Std.TreeMap.contains_iff_mem.mpr hmem), h.size]

/-- A placement finds the first node of the scan without the role; it fails when every node has it. -/
theorem placeRole_cases (h : Lists ids nodes) (cursor : Nat) :
    (placeRole role ids cursor nodes = none ∧
      ∀ (id : NodeId) e, nodes[id]? = some e → e.node.roles.contains role = true) ∨
    ∃ offset id e, placeRole role ids cursor nodes =
        some (offset, nodes.insert id (e.withRoles (e.node.roles.insert role))) ∧
      nodes[id]? = some e ∧ e.node.roles.contains role = false := by
  cases hp : placeRole role ids cursor nodes with
  | none =>
      refine .inl ⟨rfl, fun id e he => ?_⟩
      obtain ⟨i, hi⟩ := List.mem_iff_getElem?.mp ((h.mem id).mpr ⟨e, he⟩)
      obtain ⟨offset, hlt, hoffset⟩ := exists_offset cursor (List.getElem?_eq_some_iff.mp hi).1
      have hnone := List.findSome?_eq_none_iff.mp hp offset (List.mem_range.mpr hlt)
      simpa [hoffset, hi, he] using hnone
  | some r =>
      obtain ⟨offset, -, hoffset⟩ := List.exists_of_findSome?_eq_some hp
      simp only [Option.bind_eq_bind, Option.bind_eq_some_iff] at hoffset
      obtain ⟨id, -, e, he, hr⟩ := hoffset
      split at hr
      · cases hr
      · rename_i hfree
        cases hr
        exact .inr ⟨offset, id, e, rfl, he, by simpa using hfree⟩

/-- A node under the cursor that does not hold the role is taken. -/
theorem placeRole_here {id : NodeId} {e : NodeEntry} (hid : ids[cursor]? = some id)
    (he : nodes[id]? = some e) (hfree : e.node.roles.contains role = false) :
    placeRole role ids cursor nodes =
      some (0, nodes.insert id (e.withRoles (e.node.roles.insert role))) := by
  have hlt : cursor < ids.length := (List.getElem?_eq_some_iff.mp hid).1
  obtain ⟨m, hm⟩ : ∃ m, ids.length = m + 1 := ⟨ids.length - 1, by omega⟩
  have hmod : cursor % (m + 1) = cursor := Nat.mod_eq_of_lt (hm ▸ hlt)
  simp [placeRole, hm, List.range_succ_eq_map, hmod, hid, he, hfree, NodeEntry.withRoles]

/-! ## How many nodes hold a role -/

/-- The nodes that hold the role. -/
def holders (nodes : Table NodeEntry) (role : Role) : Nat :=
  nodes.count fun e => e.node.roles.contains role

theorem holders_le (nodes : Table NodeEntry) (role : Role) : holders nodes role ≤ nodes.size := by
  refine (List.countP_le_length).trans ?_
  rw [Table.rows, List.length_map, Std.TreeMap.length_toList]

theorem holders_eq_size
    (h : ∀ (id : NodeId) e, nodes[id]? = some e → e.node.roles.contains role = true) :
    holders nodes role = nodes.size := by
  rw [← Std.TreeMap.length_toList, ← List.length_map (f := Prod.snd)]
  refine List.countP_eq_length.mpr fun e he => ?_
  obtain ⟨id, hid⟩ := Table.mem_rows.mp he
  exact h id e hid

theorem holders_insert {id : NodeId} {e : NodeEntry} (he : nodes[id]? = some e)
    (hfree : e.node.roles.contains role = false) (other : Role) :
    holders (nodes.insert id (e.withRoles (e.node.roles.insert role))) other =
      holders nodes other + if other = role then 1 else 0 := by
  have hcount := Table.count_insert_some (p := fun e => e.node.roles.contains other)
    (v := e.withRoles (e.node.roles.insert role)) he
  have hnew : (e.withRoles (e.node.roles.insert role)).node.roles.contains other =
      (e.node.roles.contains other || decide (role = other)) := RoleSet.contains_insert _ _ _
  rw [hnew] at hcount
  unfold holders
  rcases eq_or_ne other role with rfl | hne
  · simp only [hfree, Bool.false_or, decide_true, if_true, Bool.false_eq_true, if_false] at hcount ⊢
    omega
  · simp only [hne.symm, decide_false, Bool.or_false, hne, if_false] at hcount ⊢
    omega

/-- Replicas are placed until there are as many as asked for, or every node holds the role; the other
roles stay where they are. -/
theorem placeReplicas_holders (h : Lists ids nodes) (count cursor : Nat) :
    Lists ids (placeReplicas role ids count (cursor, nodes)).2 ∧
      ∀ other, holders (placeReplicas role ids count (cursor, nodes)).2 other =
        if other = role then min (holders nodes role + count) ids.length else holders nodes other := by
  induction count generalizing cursor nodes with
  | zero =>
      refine ⟨h, fun other => ?_⟩
      split
      · subst other
        have hle := holders_le nodes role
        rw [h.size] at hle
        simp only [placeReplicas]
        omega
      · rfl
  | succ count ih =>
      unfold placeReplicas
      rcases @placeRole_cases role _ _ h cursor with ⟨hp, hall⟩ | ⟨offset, id, e, hp, he, hfree⟩
      · rw [hp]
        refine ⟨h, fun other => ?_⟩
        dsimp only
        split
        · subst other
          rw [holders_eq_size hall, h.size]
          omega
        · rfl
      · rw [hp]
        obtain ⟨hlists, hholders⟩ := ih (h.insert he) (cursor + offset + 1)
        refine ⟨hlists, fun other => ?_⟩
        rw [hholders, holders_insert he hfree, holders_insert he hfree]
        simp only [if_true]
        split
        · rw [Nat.add_right_comm, Nat.add_assoc]
        · rw [Nat.add_zero]

/-! ## While the cursor has not gone round -/

/-- No node holds two roles besides compute. -/
def Apart (nodes : Table NodeEntry) : Prop :=
  Entries (fun _ e => ∀ role other, role ≠ .compute → other ≠ .compute →
    e.node.roles.contains role = true → e.node.roles.contains other = true → role = other) nodes

/-- The nodes from the cursor on hold nothing but compute, and no node holds two roles besides. -/
structure Fresh (ids : List NodeId) (cursor : Nat) (nodes : Table NodeEntry) : Prop where
  apart : Apart nodes
  free : ∀ i id e, cursor ≤ i → ids[i]? = some id → nodes[id]? = some e →
    ∀ role, role ≠ .compute → e.node.roles.contains role = false

theorem Fresh.place (h : Fresh ids cursor nodes) (hlists : Lists ids nodes) {id : NodeId}
    {e : NodeEntry} (hid : ids[cursor]? = some id) (he : nodes[id]? = some e)
    (role : Role) :
    Fresh ids (cursor + 1) (nodes.insert id (e.withRoles (e.node.roles.insert role))) := by
  have hone : ∀ other, other ≠ .compute →
      (e.withRoles (e.node.roles.insert role)).node.roles.contains other = true → role = other := by
    intro other hother hcontains
    have hfree := h.free cursor id e (Nat.le_refl _) hid he other hother
    simpa [NodeEntry.withRoles, hfree] using hcontains
  refine ⟨Entries.insert h.apart ?_, ?_⟩
  · intro r other hr hother h₁ h₂
    exact (hone r hr h₁).symm.trans (hone other hother h₂)
  · intro i id' e' hi hid' he'
    have hne : id ≠ id' := by
      rintro rfl
      have hlt : cursor < ids.length := (List.getElem?_eq_some_iff.mp hid).1
      have := (List.getElem?_inj hlt hlists.nodup).mp (hid.trans hid'.symm)
      omega
    rw [Table.get_insert_ne hne] at he'
    exact h.free i id' e' (by omega) hid' he'

theorem placeReplicas_fresh (h : Fresh ids cursor nodes) (hlists : Lists ids nodes)
    (hrole : role ≠ .compute) (count : Nat) (hroom : cursor + count ≤ ids.length) :
    (placeReplicas role ids count (cursor, nodes)).1 = cursor + count ∧
      Fresh ids (cursor + count) (placeReplicas role ids count (cursor, nodes)).2 := by
  induction count generalizing cursor nodes with
  | zero => exact ⟨rfl, h⟩
  | succ count ih =>
      obtain ⟨id, hid⟩ : ∃ id, ids[cursor]? = some id :=
        ⟨_, List.getElem?_eq_getElem (by omega)⟩
      obtain ⟨e, he⟩ := (hlists.mem id).mp (List.mem_of_getElem? hid)
      have hfree := h.free cursor id e (Nat.le_refl _) hid he role hrole
      have hnext := ih (h.place hlists hid he role) (hlists.insert he) (by omega)
      unfold placeReplicas
      rw [placeRole_here hid he hfree]
      simpa [Nat.add_assoc, Nat.add_comm 1 count] using hnext

end Placing

/-! ## All roles -/

/-- The roles in the order they are spread: every node computes already. -/
def spreadOrder : List Role := degradationPriority.filter fun role => decide (role ≠ .compute)

/-- Every node computes. -/
def computing (nodes : Table NodeEntry) : Table NodeEntry :=
  nodes.keys.foldl (fun nodes id => nodes.modify id fun e =>
    { e with node := { e.node with roles := e.node.roles.insert .compute } }) nodes

/-- The cursor and the table when the minimums of these roles have been placed. -/
def placed (policies : RolePolicies) (nodes : Table NodeEntry) (roles : List Role) :
    Nat × Table NodeEntry :=
  roles.foldl (fun acc role => placeReplicas role nodes.keys (policies role).minReplicas acc)
    (0, computing nodes)

/-- The minimums of these roles together. -/
def minimums (policies : RolePolicies) (roles : List Role) : Nat :=
  (roles.map fun role => (policies role).minReplicas).sum

section Spreading

variable (policies : RolePolicies) {nodes : Table NodeEntry}

theorem assignInitialRoles_eq (nodes : Table NodeEntry) :
    assignInitialRoles policies nodes = (placed policies nodes spreadOrder).2 := by
  unfold assignInitialRoles
  dsimp only
  split
  · rename_i hempty
    have hnil : nodes.keys = [] := List.isEmpty_iff.mp hempty
    have hplace : ∀ role count cursor, placeReplicas role [] count (cursor, nodes) = (cursor, nodes) := by
      intro role count cursor
      cases count <;> rfl
    have hspread : ∀ roles : List Role, roles.foldl
        (fun acc role => placeReplicas role [] (policies role).minReplicas acc) (0, nodes) =
          (0, nodes) := by
      intro roles
      induction roles with
      | nil => rfl
      | cons role roles ih => rw [List.foldl_cons, hplace, ih]
    rw [placed, computing, hnil, List.foldl_nil, hspread]
  · rfl

theorem computing_lists (nodes : Table NodeEntry) : Lists nodes.keys (computing nodes) := by
  have hmem : ∀ (ids : List NodeId) (table : Table NodeEntry) (id : NodeId),
      id ∈ ids.foldl (fun nodes id => nodes.modify id fun e =>
        { e with node := { e.node with roles := e.node.roles.insert .compute } }) table ↔
      id ∈ table := by
    intro ids table id
    induction ids generalizing table with
    | nil => rfl
    | cons x ids ih => rw [List.foldl_cons, ih, Std.TreeMap.mem_modify]
  have hsize : ∀ (ids : List NodeId) (table : Table NodeEntry),
      (ids.foldl (fun nodes id => nodes.modify id fun e =>
        { e with node := { e.node with roles := e.node.roles.insert .compute } }) table).size =
      table.size := by
    intro ids table
    induction ids generalizing table with
    | nil => rfl
    | cons x ids ih => rw [List.foldl_cons, ih, Std.TreeMap.size_modify]
  refine ⟨?_, fun id => ?_, ?_⟩
  · rw [← Std.TreeMap.map_fst_toList_eq_keys]
    exact (Table.keys_sorted nodes).imp Nat.ne_of_lt
  · rw [Std.TreeMap.mem_keys, ← hmem nodes.keys nodes id, ← computing,
      Std.TreeMap.mem_iff_isSome_getElem?, Option.isSome_iff_exists]
  · rw [Std.TreeMap.length_keys, computing, hsize]

theorem placed_concat (nodes : Table NodeEntry) (roles : List Role) (role : Role) :
    placed policies nodes (roles ++ [role]) =
      placeReplicas role nodes.keys (policies role).minReplicas (placed policies nodes roles) := by
  rw [placed, List.foldl_append]
  rfl

/-- The roles placed are held as often as asked for, or by every node; the others as before. -/
theorem placed_holders (nodes : Table NodeEntry) {roles : List Role} (hnd : roles.Nodup) :
    Lists nodes.keys (placed policies nodes roles).2 ∧
      ∀ other, holders (placed policies nodes roles).2 other =
        if other ∈ roles then
          min (holders (computing nodes) other + (policies other).minReplicas) nodes.keys.length
        else holders (computing nodes) other := by
  induction roles using List.reverseRecOn with
  | nil => exact ⟨computing_lists nodes, fun other => rfl⟩
  | append_singleton roles role ih =>
      obtain ⟨hroles, -, hnew⟩ := List.nodup_append.mp hnd
      obtain ⟨hlists, hholders⟩ := ih hroles
      have hfresh : role ∉ roles := fun h => hnew role h role (by simp) rfl
      obtain ⟨hlists', hholders'⟩ := @placeReplicas_holders role _ _ hlists
        (policies role).minReplicas (placed policies nodes roles).1
      rw [placed_concat]
      refine ⟨hlists', fun other => ?_⟩
      rw [hholders', hholders, hholders]
      rcases eq_or_ne other role with rfl | hne
      · simp [hfresh]
      · simp [hne]

theorem computing_bare (hnew : ∀ (id : NodeId) e, nodes[id]? = some e → e.node.roles = .empty) :
    Entries (fun _ e => ∀ role, role ≠ .compute → e.node.roles.contains role = false)
      (computing nodes) := by
  refine Entries.foldl _ ?_ fun table id _ htable => htable.modify id fun e he role hrole => ?_
  · intro id e he role _
    rw [hnew id e he, RoleSet.contains_empty]
  · exact (RoleSet.contains_insert _ _ _).trans (by simp [he role hrole, hrole.symm])

theorem computing_fresh (hnew : ∀ (id : NodeId) e, nodes[id]? = some e → e.node.roles = .empty) :
    Fresh nodes.keys 0 (computing nodes) := by
  have hbare := computing_bare hnew
  refine ⟨fun id e he role _ hrole _ h _ => ?_, fun _ id e _ _ he => hbare id e he⟩
  rw [hbare id e he role hrole] at h
  cases h

/-- As long as the minimums placed fit the nodes, each placement goes to a node of its own. -/
theorem placed_fresh (hnew : ∀ (id : NodeId) e, nodes[id]? = some e → e.node.roles = .empty)
    {roles : List Role} (hroles : ∀ role ∈ roles, role ≠ .compute) (hnd : roles.Nodup)
    (hroom : minimums policies roles ≤ nodes.keys.length) :
    (placed policies nodes roles).1 = minimums policies roles ∧
      Fresh nodes.keys (minimums policies roles) (placed policies nodes roles).2 := by
  induction roles using List.reverseRecOn with
  | nil => exact ⟨rfl, computing_fresh hnew⟩
  | append_singleton roles role ih =>
      have hsum : minimums policies (roles ++ [role]) =
          minimums policies roles + (policies role).minReplicas := by simp [minimums]
      have hearlier := (List.nodup_append.mp hnd).1
      obtain ⟨hcursor, hfresh⟩ := ih (fun r hr => hroles r (by simp [hr])) hearlier (by omega)
      have hlists := (placed_holders policies nodes hearlier).1
      have hplaced := placeReplicas_fresh hfresh hlists (hroles role (by simp))
        (policies role).minReplicas (by omega)
      rw [placed_concat, hsum]
      rwa [← hcursor] at hplaced ⊢

/-- What the first spread of roles makes of the nodes. -/
structure Spreads (nodes after : Table NodeEntry) : Prop where
  same : ∀ id : NodeId, (after[id]?).isSome = (nodes[id]?).isSome
  compute : ∀ (id : NodeId) e, after[id]? = some e → e.node.roles.contains .compute = true
  /-- Each other role is held by as many nodes as its minimum asks for, or by all there are. -/
  minimum : ∀ role ∈ degradationPriority, role ≠ .compute →
    holders after role = min (policies role).minReplicas nodes.keys.length
  /-- Nobody holds two of them, in the middle of placing a role too, while what has been placed so far
  fits the nodes. -/
  apart : ∀ roles role rest count, spreadOrder = roles ++ role :: rest →
    count ≤ (policies role).minReplicas → minimums policies roles + count ≤ nodes.keys.length →
    Apart (placeReplicas role nodes.keys count (placed policies nodes roles)).2

/-- Over any nodes that hold no roles. -/
theorem assignInitialRoles_spreads
    (hnew : ∀ (id : NodeId) e, nodes[id]? = some e → e.node.roles = .empty) :
    Spreads policies nodes (assignInitialRoles policies nodes) := by
  have hnd : spreadOrder.Nodup := by decide
  refine ⟨fun id => ?_, assignInitialRoles_compute policies nodes, ?_, ?_⟩
  · have hkinds := congrArg Option.isSome (assignInitialRoles_kinds policies nodes id)
    rw [Option.isSome_map, Option.isSome_map] at hkinds
    exact hkinds
  · intro role hmem hrole
    have hbare : holders (computing nodes) role = 0 :=
      Table.count_eq_zero_iff.mpr fun id e he => computing_bare hnew id e he role hrole
    rw [assignInitialRoles_eq, (placed_holders policies nodes hnd).2, if_pos, hbare, Nat.zero_add]
    exact List.mem_filter.mpr ⟨hmem, by simpa using hrole⟩
  · intro roles role rest count horder _ hroom
    rw [horder] at hnd
    have hroles := (List.nodup_append.mp hnd).1
    have hothers : ∀ r ∈ roles ++ role :: rest, r ≠ .compute := by
      intro r hr
      rw [← horder] at hr
      simpa using (List.mem_filter.mp hr).2
    obtain ⟨hcursor, hfresh⟩ := placed_fresh policies hnew
      (fun r hr => hothers r (List.mem_append_left _ hr)) hroles (by omega)
    have hplaced := placeReplicas_fresh hfresh (placed_holders policies nodes hroles).1
      (hothers role (by simp)) count hroom
    rw [← hcursor] at hplaced
    exact hplaced.2.apart

end Spreading

/-- The eight nodes of the default configuration. -/
theorem eight_nodes_spread : Spreads .default (initialNodes (.default ⟨4, 8⟩) 0)
    (assignInitialRoles .default (initialNodes (.default ⟨4, 8⟩) 0)) :=
  assignInitialRoles_spreads .default (initialNodes_entries (p := fun _ e => e.node.roles = .empty)
    (.default ⟨4, 8⟩) 0 (fun _ _ => rfl) fun _ _ => rfl)

end Gavel.Cluster
