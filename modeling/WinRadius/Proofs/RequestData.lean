/-
The data of a request is a finite map.

`Holds` is the invariant: the cells are the nodes of one list that ends at
`NULL`, no two of them have the same key, and each holds data. The loop
stops at the pointer to the node of its key, or at the last pointer; what
is done there, a new node behind the list, a node written where it stands,
a node taken out, leaves the other nodes as they are.
-/
import WinRadius.Lib.Calls
import WinRadius.Model.RequestData

namespace WinRadius

open Lib

-- ======== the map

section map

variable {κ ω φ : Type}

/-- Data by key, with the functions that free them; and those that were
replaced, in order. -/
structure DataMap (κ ω φ : Type) where
  entries : AList fun _ : κ × Int => ω × Option φ := ∅
  replaced : List (ω × Option φ) := []

/-- What the map answers to a call, and what becomes of it. -/
def DataMap.call [DecidableEq κ] (d : DataMap κ ω φ) :
    DataCall κ ω φ → DataAnswer ω × DataMap κ ω φ
  | .add _ _ none _ => (.int (-1), d)
  | .add ptr int (some v) f =>
      (.int 0,
        { entries := d.entries.insert (ptr, int) (v, f)
          replaced := d.replaced ++ (d.entries.lookup (ptr, int)).toList })
  | .get ptr int =>
      (.data ((d.entries.lookup (ptr, int)).map Prod.fst),
        { d with entries := d.entries.erase (ptr, int) })
  | .reference ptr int =>
      (.data ((d.entries.lookup (ptr, int)).map Prod.fst), d)

/-- The calls that free replaced data. -/
def DataMap.freed (d : DataMap κ ω φ) : List (φ × ω) :=
  d.replaced.filterMap fun e => e.2.map (·, e.1)

/-- The data that is held or was replaced. -/
def DataMap.kept (d : DataMap κ ω φ) : List ω :=
  (d.entries.entries.map fun e => e.2.1) ++ d.replaced.map Prod.fst

/-- What a call handed over. -/
def DataCall.added : DataCall κ ω φ × DataAnswer ω → Option ω
  | (.add _ _ v _, .int 0) => v
  | _ => none

/-- What a call gave back to its caller. -/
def DataCall.taken : DataCall κ ω φ × DataAnswer ω → Option ω
  | (.get _ _, .data p) => p
  | _ => none

variable [DecidableEq κ]

theorem held_perm (s : AList fun _ : κ × Int => ω × Option φ)
    (k : κ × Int) :
    (s.entries.map fun e => e.2.1).Perm
      (((s.lookup k).map Prod.fst).toList
        ++ (s.erase k).entries.map fun e => e.2.1) := by
  cases h : s.lookup k with
  | none =>
      have hs : s.erase k = s := by
        apply AList.ext
        exact List.kerase_of_notMem_keys (AList.lookup_eq_none.mp h)
      rw [hs]
      exact .refl _
  | some v => exact (FiniteMap.entries_perm h).map fun e => e.2.1

/-- A call moves what it is given into the map and what it gives back out
of it. -/
theorem DataMap.call_kept (d : DataMap κ ω φ) (c : DataCall κ ω φ) :
    (d.kept ++ (DataCall.added (c, (d.call c).1)).toList).Perm
      ((DataCall.taken (c, (d.call c).1)).toList ++ (d.call c).2.kept) := by
  classical
  rw [List.perm_iff_count]
  intro x
  cases c with
  | add ptr int v f =>
      have hheld := (held_perm d.entries (ptr, int)).count_eq x
      cases v with
      | none => simp [DataMap.call, DataCall.added, DataCall.taken]
      | some v =>
          simp only [DataMap.call, DataCall.added, DataCall.taken,
            DataMap.kept, AList.entries_insert, List.map_cons,
            List.map_append, List.count_append, List.count_cons,
            Option.toList_none, Option.toList_some, List.count_nil] at hheld ⊢
          rw [show (d.entries.erase (ptr, int)).entries
            = d.entries.entries.kerase (ptr, int) from rfl] at hheld
          cases hl : d.entries.lookup (ptr, int) with
          | none =>
              rw [hl] at hheld
              simp at hheld ⊢
              omega
          | some w =>
              rw [hl] at hheld
              simp at hheld ⊢
              omega
  | get ptr int =>
      have hheld := (held_perm d.entries (ptr, int)).count_eq x
      simp only [DataMap.call, DataCall.added, DataCall.taken,
        DataMap.kept, List.count_append, Option.toList_none,
        List.count_nil] at hheld ⊢
      omega
  | reference ptr int => simp [DataMap.call, DataCall.added, DataCall.taken]

/-- Whatever was added is held, was replaced, or was given back, once. -/
theorem DataMap.conserves (d : DataMap κ ω φ)
    (calls : List (DataCall κ ω φ)) :
    (d.kept ++ (calls.zip (allAnswers DataMap.call d calls).1).filterMap
        DataCall.added).Perm
      ((calls.zip (allAnswers DataMap.call d calls).1).filterMap
          DataCall.taken ++ (allAnswers DataMap.call d calls).2.kept) := by
  classical
  induction calls generalizing d with
  | nil => simp [allAnswers]
  | cons c calls ih =>
      have hrest := ih (d.call c).2
      have hfirst := d.call_kept c
      rw [List.perm_iff_count] at hrest hfirst ⊢
      intro x
      have hx := hrest x
      have hy := hfirst x
      rw [allAnswers]
      simp only [List.zip_cons_cons, List.filterMap_cons,
        List.count_append] at hx hy ⊢
      cases hadded : DataCall.added (c, (d.call c).1) with
      | none =>
          cases htaken : DataCall.taken (c, (d.call c).1) with
          | none =>
              rw [hadded, htaken] at hy
              simp only [Option.toList_none, List.count_nil] at hy ⊢
              omega
          | some v =>
              rw [hadded, htaken] at hy
              simp only [Option.toList_none, Option.toList_some,
                List.count_nil, List.count_cons] at hy ⊢
              omega
      | some u =>
          cases htaken : DataCall.taken (c, (d.call c).1) with
          | none =>
              rw [hadded, htaken] at hy
              simp only [Option.toList_none, Option.toList_some,
                List.count_nil, List.count_cons] at hy ⊢
              omega
          | some v =>
              rw [hadded, htaken] at hy
              simp only [Option.toList_some, List.count_nil,
                List.count_cons] at hy ⊢
              omega

end map

namespace DataStore

variable {κ ω φ : Type}

-- ======== the invariant

/-- The links of the cells. -/
def nexts (s : DataStore κ ω φ) : Nat → Option Nat :=
  fieldOf s.cells (·.next)

/-- The keys of the cells. -/
def keys (s : DataStore κ ω φ) : Nat → Option (κ × Int) :=
  fieldOf s.cells fun e => some (e.uniquePtr, e.uniqueInt)

/-- The data of the cells, with their functions. -/
def values (s : DataStore κ ω φ) : Nat → Option (ω × Option φ) :=
  fieldOf s.cells fun e => e.opaqueData.map (·, e.freeOpaque)

/-- Where the pointer behind the nodes `as` is kept. -/
def lastRef (as : List Nat) : DataRef :=
  (as.getLast?.map DataRef.nextOf).getD .head

@[simp] theorem lastRef_nil : lastRef [] = .head := rfl

@[simp] theorem lastRef_append (as : List Nat) (a : Nat) :
    lastRef (as ++ [a]) = .nextOf a := by
  simp [lastRef]

/-- The cells are the nodes of the list; they have different keys and hold
data. -/
structure Holds (s : DataStore κ ω φ) (nodes : List Nat) : Prop where
  list : Segment id s.nexts s.data nodes none
  distinct : nodes.Nodup
  cells : ∀ a, a ∈ s.cells ↔ a ∈ nodes
  keyed : ∀ a ∈ nodes, ∀ b ∈ nodes, s.keys a = s.keys b → a = b
  filled : ∀ a ∈ nodes, s.values a ≠ none

/-- The store is the map. -/
def Represents [DecidableEq κ] (s : DataStore κ ω φ) (d : DataMap κ ω φ) : Prop :=
  (∃ nodes, s.Holds nodes
      ∧ ∀ k v, d.entries.lookup k = some v
        ↔ ∃ a ∈ nodes, s.keys a = some k ∧ s.values a = some v)
    ∧ s.freed = d.freed

section holds

variable {s s' : DataStore κ ω φ} {nodes front back : List Nat}
  {ptr : κ} {int : Int} {a self : Nat} {p : Option Nat}
  {e : RequestData κ ω φ}

theorem keys_of_lookup (h : s.cells.lookup a = some e) :
    s.keys a = some (e.uniquePtr, e.uniqueInt) := by
  unfold keys fieldOf
  rw [h]
  rfl

theorem nexts_of_lookup (h : s.cells.lookup a = some e) :
    s.nexts a = e.next := by
  unfold nexts fieldOf
  rw [h]
  rfl

theorem values_of_lookup (h : s.cells.lookup a = some e) :
    s.values a = e.opaqueData.map (·, e.freeOpaque) := by
  unfold values fieldOf
  rw [h]
  rfl

/-- A node can be read. -/
theorem Holds.lookup (h : s.Holds nodes) (ha : a ∈ nodes) :
    ∃ e, s.cells.lookup a = some e :=
  Option.isSome_iff_exists.mp (AList.lookup_isSome.mpr ((h.cells a).mpr ha))

/-- The pointer behind some of the nodes leads to the next. -/
theorem Holds.load (h : s.Holds (front ++ back)) :
    s.load (lastRef front) = some back.head? := by
  have hhead : ∀ {p : Option Nat}, Segment id s.nexts p back none →
      p = back.head? := by
    intro p hp
    cases back with
    | nil => exact hp
    | cons a back => exact hp.1
  have hlist := h.list
  rcases List.eq_nil_or_concat front with rfl | ⟨as, a, rfl⟩
  · exact congrArg some (hhead hlist)
  · rw [List.concat_eq_append] at hlist h ⊢
    obtain ⟨e, he⟩ := h.lookup (a := a) (by simp)
    rw [List.append_assoc, segment_append] at hlist
    obtain ⟨q, -, -, hrest⟩ := hlist
    rw [lastRef_append, DataStore.load, he]
    exact congrArg some ((nexts_of_lookup he).symm.trans (hhead hrest))

/-- The last pointer of some cells can be read. -/
theorem load_ne_none (h : ∀ a ∈ front, a ∈ s.cells) :
    s.load (lastRef front) ≠ none := by
  rcases List.eq_nil_or_concat front with rfl | ⟨as, a, rfl⟩
  · exact Option.some_ne_none _
  · rw [List.concat_eq_append, lastRef_append]
    obtain ⟨e, he⟩ := Option.isSome_iff_exists.mp
      (AList.lookup_isSome.mpr (h a (by simp)))
    rw [DataStore.load, he]
    exact Option.some_ne_none _

/-- A pointer that can be read can be written: its target changes, and
nothing else. -/
theorem assign_run {last : DataRef} (h : s.load last ≠ none)
    (p : Option Nat) :
    ∃ s', s.assign last p = some s' ∧ s'.keys = s.keys
      ∧ s'.values = s.values ∧ s'.freed = s.freed
      ∧ (∀ a, a ∈ s'.cells ↔ a ∈ s.cells)
      ∧ (last = .head ∧ s'.data = p ∧ s'.nexts = s.nexts
        ∨ ∃ node, last = .nextOf node ∧ s'.data = s.data
          ∧ s'.nexts = Function.update s.nexts node p) := by
  cases last with
  | head =>
      exact ⟨_, rfl, rfl, rfl, rfl, fun _ => Iff.rfl, Or.inl ⟨rfl, rfl, rfl⟩⟩
  | nextOf node =>
      cases he : s.cells.lookup node with
      | none =>
          rw [DataStore.load, he] at h
          exact absurd rfl h
      | some e =>
          have hmem : node ∈ s.cells := AList.lookup_isSome.mp (by rw [he]; rfl)
          have hassign : s.assign (.nextOf node) p
              = some { s with
                cells := s.cells.insert node { e with next := p } } := by
            rw [DataStore.assign, he]
            rfl
          refine ⟨_, hassign, ?_, ?_, rfl, ?_,
            Or.inr ⟨node, rfl, rfl, fieldOf_insert _ _ _ _⟩⟩
          · refine (fieldOf_insert _ _ _ _).trans ?_
            rw [← keys_of_lookup he]
            exact Function.update_eq_self _ _
          · refine (fieldOf_insert _ _ _ _).trans ?_
            show Function.update s.values node
              (e.opaqueData.map (·, e.freeOpaque)) = s.values
            rw [← values_of_lookup he]
            exact Function.update_eq_self _ _
          · intro a
            show a ∈ s.cells.insert node _ ↔ _
            rw [AList.mem_insert]
            constructor
            · rintro (rfl | ha)
              · exact hmem
              · exact ha
            · exact Or.inr

/-- Writing the pointer behind some of the nodes redirects the list there,
and keeps every list of other nodes. -/
theorem list_assign (hlist : Segment id s.nexts s.data front p)
    (hnd : front.Nodup) {q : Option Nat}
    (h : lastRef front = .head ∧ s'.data = q ∧ s'.nexts = s.nexts
      ∨ ∃ node, lastRef front = .nextOf node ∧ s'.data = s.data
        ∧ s'.nexts = Function.update s.nexts node q) :
    Segment id s'.nexts s'.data front q
      ∧ ∀ as r t, (∀ a ∈ as, a ∉ front) → Segment id s.nexts r as t →
        Segment id s'.nexts r as t := by
  rcases List.eq_nil_or_concat front with rfl | ⟨as, a, rfl⟩
  · rcases h with ⟨-, hdata, hnexts⟩ | ⟨node, hnode, -⟩
    · rw [hnexts]
      exact ⟨hdata, fun _ _ _ _ hseg => hseg⟩
    · cases hnode
  · rw [List.concat_eq_append] at hlist hnd h ⊢
    rw [lastRef_append] at h
    rcases h with ⟨hhead, -⟩ | ⟨node, hnode, hdata, hnexts⟩
    · cases hhead
    · cases hnode
      rw [hdata, hnexts]
      rw [List.nodup_append] at hnd
      refine ⟨hlist.redirect fun b hb => hnd.2.2 b hb a (by simp), ?_⟩
      intro bs r t hout hseg
      apply hseg.update
      intro b hb hba
      exact hout b hb (by simp [show b = a from hba])

-- ======== the search

variable [DecidableEq κ]

/-- The loop passes the nodes of other keys. -/
theorem walk_passes (front back : List Nat) (h : s.Holds nodes) {rest : List Nat} {n : Nat}
    (hnodes : nodes = front ++ rest ++ back)
    (hne : ∀ a ∈ rest, s.keys a ≠ some (ptr, int)) :
    s.walk ptr int (rest.length + n) (lastRef front)
      = s.walk ptr int n (lastRef (front ++ rest)) := by
  induction rest generalizing front with
  | nil => simp
  | cons a rest ih =>
      have hload := (show s.Holds (front ++ (a :: (rest ++ back))) by
        rw [hnodes] at h; simpa using h).load
      obtain ⟨e, he⟩ := h.lookup (a := a) (by simp [hnodes])
      have hkey := hne a List.mem_cons_self
      rw [keys_of_lookup he] at hkey
      have hmiss : ¬(e.uniquePtr = ptr ∧ e.uniqueInt = int) := by
        rintro ⟨rfl, rfl⟩
        exact hkey rfl
      have hrest := @ih (front ++ [a]) (by simp [hnodes])
        fun b hb => hne b (List.mem_cons_of_mem a hb)
      rw [lastRef_append, List.append_assoc, List.singleton_append] at hrest
      rw [List.length_cons, Nat.add_right_comm, DataStore.walk, hload]
      simp only [List.head?_cons, he]
      rw [if_neg hmiss, hrest]

/-- The search comes to the pointer to the node of its key, or to the last
pointer of the list. -/
theorem search_run (h : s.Holds nodes) (ptr : κ) (int : Int) :
    (∃ front self back e, nodes = front ++ self :: back
        ∧ s.cells.lookup self = some e
        ∧ s.keys self = some (ptr, int)
        ∧ s.search ptr int = some (lastRef front)
        ∧ s.load (lastRef front) = some (some self))
      ∨ (∀ a ∈ nodes, s.keys a ≠ some (ptr, int))
        ∧ s.search ptr int = some (lastRef nodes)
        ∧ s.load (lastRef nodes) = some none := by
  obtain ⟨n, hn⟩ : ∃ n, s.cells.keys.length = nodes.length + n := by
    have hsub : nodes ⊆ s.cells.keys := fun a ha => (h.cells a).mpr ha
    have hle := (List.subperm_of_subset h.distinct hsub).length_le
    exact ⟨s.cells.keys.length - nodes.length, by omega⟩
  by_cases hin : ∃ a ∈ nodes, s.keys a = some (ptr, int)
  · obtain ⟨self, hself, hkey⟩ := hin
    obtain ⟨front, back, rfl⟩ := List.append_of_mem hself
    obtain ⟨e, he⟩ := h.lookup hself
    have hload : s.load (lastRef front) = some (some self) := h.load
    have hne : ∀ a ∈ front, s.keys a ≠ some (ptr, int) := by
      intro a ha hka
      have heq := h.keyed a (by simp [ha]) self hself (hka.trans hkey.symm)
      have hd := h.distinct
      rw [List.nodup_append] at hd
      exact hd.2.2 a ha self (by simp) heq
    refine Or.inl ⟨front, self, back, e, rfl, he, hkey, ?_, hload⟩
    have hpass := walk_passes [] (self :: back)
      (n := (self :: back).length + n) h rfl hne
    have hmatch : e.uniquePtr = ptr ∧ e.uniqueInt = int := by
      rw [keys_of_lookup he] at hkey
      cases hkey
      exact ⟨rfl, rfl⟩
    rw [DataStore.search, hn, List.length_append, Nat.add_assoc]
    refine hpass.trans ?_
    rw [List.nil_append, List.length_cons, Nat.add_right_comm,
      DataStore.walk, hload]
    simp only [he]
    rw [if_pos hmatch]
  · have hne : ∀ a ∈ nodes, s.keys a ≠ some (ptr, int) :=
      fun a ha hk => hin ⟨a, ha, hk⟩
    have hload : s.load (lastRef nodes) = some none := by
      have hnodes : s.Holds (nodes ++ []) := by simpa using h
      exact hnodes.load
    refine Or.inr ⟨hne, ?_, hload⟩
    have hpass := walk_passes [] [] (n := n) h
      (by simp) hne
    rw [DataStore.search, hn]
    refine hpass.trans ?_
    rw [List.nil_append]
    cases n with
    | zero => rw [DataStore.walk, hload]
    | succ n => rw [DataStore.walk, hload]

-- ======== splices

omit [DecidableEq κ] in
/-- What a list of other nodes leads to is put behind some of the
nodes. -/
theorem splice (rest : List Nat) {q : Option Nat}
    (hfront : Segment id s.nexts s.data front q) (hnd : front.Nodup)
    (hload : s.load (lastRef front) ≠ none)
    (hrest : Segment id s.nexts p rest none)
    (hout : ∀ a ∈ rest, a ∉ front) :
    ∃ s', s.assign (lastRef front) p = some s'
      ∧ Segment id s'.nexts s'.data (front ++ rest) none
      ∧ s'.keys = s.keys ∧ s'.values = s.values ∧ s'.freed = s.freed
      ∧ ∀ a, a ∈ s'.cells ↔ a ∈ s.cells := by
  obtain ⟨s', hassign, hkeys, hvalues, hfreed, hcells, hwhere⟩ :=
    assign_run hload p
  obtain ⟨hlist, hkept⟩ := list_assign hfront hnd hwhere
  refine ⟨s', hassign, ?_, hkeys, hvalues, hfreed, hcells⟩
  exact segment_append.mpr ⟨p, hlist, hkept rest p none hout hrest⟩

omit [DecidableEq κ] in
/-- The list in front of a node, the node and the list behind it. -/
theorem Holds.around (h : s.Holds (front ++ self :: back)) :
    Segment id s.nexts s.data front (some self)
      ∧ Segment id s.nexts (s.nexts self) back none
      ∧ front.Nodup ∧ self ∉ front ∧ self ∉ back ∧ ∀ a ∈ back, a ∉ front := by
  obtain ⟨q, hfront, rfl, hback⟩ := segment_append.mp h.list
  have hd := h.distinct
  rw [List.nodup_append] at hd
  obtain ⟨hnd, hrest, hdisj⟩ := hd
  exact ⟨hfront, hback, hnd, fun ha => hdisj self ha self (by simp) rfl,
    (List.nodup_cons.mp hrest).1,
    fun a ha hb => hdisj a hb a (by simp [ha]) rfl⟩

variable {d : DataMap κ ω φ} {v : ω} {f : Option φ} {m : Malloc}

/-- What the map has for a key is what its node holds. -/
theorem lookup_present (h : s.Holds nodes)
    (hmap : ∀ k v, d.entries.lookup k = some v
      ↔ ∃ a ∈ nodes, s.keys a = some k ∧ s.values a = some v)
    (hself : self ∈ nodes) (hkey : s.keys self = some (ptr, int)) :
    d.entries.lookup (ptr, int) = s.values self := by
  obtain ⟨v, hv⟩ := Option.ne_none_iff_exists'.mp (h.filled self hself)
  rw [hv]
  exact (hmap _ _).mpr ⟨self, hself, hkey, hv⟩

theorem lookup_absent
    (hmap : ∀ k v, d.entries.lookup k = some v
      ↔ ∃ a ∈ nodes, s.keys a = some k ∧ s.values a = some v)
    (hne : ∀ a ∈ nodes, s.keys a ≠ some (ptr, int)) :
    d.entries.lookup (ptr, int) = none := by
  rw [Option.eq_none_iff_forall_ne_some]
  intro v hv
  obtain ⟨a, ha, hk, -⟩ := (hmap _ _).mp hv
  exact hne a ha hk

/-- The node of a key is written where it stands. -/
theorem add_present (h : s.Holds (front ++ self :: back))
    (hmap : ∀ k v, d.entries.lookup k = some v
      ↔ ∃ a ∈ front ++ self :: back,
        s.keys a = some k ∧ s.values a = some v)
    (hfreed : s.freed = d.freed) (he : s.cells.lookup self = some e)
    (hkey : s.keys self = some (ptr, int))
    (hsearch : s.search ptr int = some (lastRef front))
    (hload : s.load (lastRef front) = some (some self)) :
    ∃ s', s.add m ptr int (some v) f = some (0, s')
      ∧ s'.Represents (d.call (.add ptr int (some v) f)).2 := by
  obtain ⟨hfront, hback, hnd, hself, hselfb, hdisj⟩ := h.around
  obtain ⟨old, hold⟩ : ∃ old, e.opaqueData = some old := by
    have hfilled := h.filled self (by simp)
    rw [values_of_lookup he] at hfilled
    obtain ⟨x, hx⟩ := Option.ne_none_iff_exists'.mp hfilled
    obtain ⟨old, hold, -⟩ := Option.map_eq_some_iff.mp hx
    exact ⟨old, hold⟩
  have hvalue : d.entries.lookup (ptr, int) = some (old, e.freeOpaque) := by
    rw [lookup_present h hmap (by simp) hkey, values_of_lookup he, hold]
    rfl
  -- the cell is written over, its link included
  let s₁ : DataStore κ ω φ := { s.release e with
    cells := s.cells.insert self ⟨e.next, ptr, int, some v, f⟩ }
  have hcells₁ : (s.release e).cells = s.cells := by
    unfold DataStore.release
    split
    · rfl
    · rfl
  have hdata₁ : (s.release e).data = s.data := by
    unfold DataStore.release
    split
    · rfl
    · rfl
  have hnexts : s₁.nexts = s.nexts := by
    refine (fieldOf_insert _ _ _ _).trans ?_
    show Function.update s.nexts self e.next = s.nexts
    rw [← nexts_of_lookup he]
    exact Function.update_eq_self _ _
  have hkeys : s₁.keys = s.keys := by
    refine (fieldOf_insert _ _ _ _).trans ?_
    show Function.update s.keys self (some (ptr, int)) = s.keys
    rw [← hkey]
    exact Function.update_eq_self _ _
  have hvalues : s₁.values = Function.update s.values self (some (v, f)) :=
    fieldOf_insert _ _ _ _
  have hmem : ∀ a, a ∈ s₁.cells ↔ a ∈ s.cells := by
    intro a
    show a ∈ s.cells.insert self _ ↔ _
    rw [AList.mem_insert]
    constructor
    · rintro (rfl | ha)
      · exact (h.cells _).mpr (by simp)
      · exact ha
    · exact Or.inr
  have hload₁ : s₁.load (lastRef front) ≠ none :=
    load_ne_none fun a ha => (hmem a).mpr ((h.cells a).mpr (by simp [ha]))
  obtain ⟨s', hassign, hlist, hkeys', hvalues', hfreed', hcells'⟩ :=
    splice (s := s₁) (p := some self) (self :: back)
      (by rw [hnexts]; exact hdata₁ ▸ hfront) hnd hload₁
      ⟨rfl, by rw [hnexts]; exact hback⟩
      (by
        intro a ha
        rcases List.mem_cons.mp ha with rfl | ha
        · exact hself
        · exact hdisj a ha)
  refine ⟨s', ?_, ⟨front ++ self :: back, ⟨hlist, h.distinct, ?_, ?_, ?_⟩,
    ?_⟩, ?_⟩
  · rw [DataStore.add, if_neg (by simp), hsearch]
    dsimp only [Option.bind_eq_bind, Option.bind_some]
    rw [hload]
    dsimp only [Option.bind_some]
    rw [he]
    dsimp only [Option.bind_some]
    rw [hcells₁, show ({ s.release e with
      cells := s.cells.insert self ⟨e.next, ptr, int, some v, f⟩ } :
        DataStore κ ω φ) = s₁ from rfl, hassign]
    rfl
  · intro a
    rw [hcells', hmem, h.cells]
  · rw [hkeys', hkeys]
    exact h.keyed
  · intro a ha
    rw [hvalues', hvalues, Function.update_apply]
    split
    · exact Option.some_ne_none _
    · exact h.filled a ha
  · intro k w
    rw [hkeys', hkeys, hvalues', hvalues]
    show (d.entries.insert (ptr, int) (v, f)).lookup k = _ ↔ _
    rw [FiniteMap.lookup_insert]
    split
    · next hk =>
        rw [hk]
        constructor
        · intro hw
          exact ⟨self, by simp, hkey, by rw [Function.update_self, hw]⟩
        · rintro ⟨a, ha, hka, hw⟩
          rw [h.keyed a ha self (by simp) (hka.trans hkey.symm),
            Function.update_self] at hw
          exact hw
    · next hk =>
        rw [hmap]
        apply exists_congr
        intro a
        apply and_congr_right
        intro _
        apply and_congr_right
        intro hka
        rw [Function.update_of_ne]
        rintro rfl
        exact hk (Option.some.inj (hka.symm.trans hkey))
  · rw [hfreed']
    show (s.release e).freed = (d.replaced ++ _).filterMap _
    rw [hvalue, List.filterMap_append]
    unfold DataStore.release
    rw [hold]
    cases e.freeOpaque with
    | none =>
        rw [hfreed]
        exact (List.append_nil _).symm
    | some g =>
        show s.freed ++ _ = _
        rw [hfreed]
        rfl

/-- A node of a new key is put behind the others. -/
theorem add_absent (h : s.Holds nodes)
    (hmap : ∀ k v, d.entries.lookup k = some v
      ↔ ∃ a ∈ nodes, s.keys a = some k ∧ s.values a = some v)
    (hfreed : s.freed = d.freed)
    (hne : ∀ a ∈ nodes, s.keys a ≠ some (ptr, int))
    (hsearch : s.search ptr int = some (lastRef nodes))
    (hload : s.load (lastRef nodes) = some none) :
    ∃ s', s.add m ptr int (some v) f = some (0, s')
      ∧ s'.Represents (d.call (.add ptr int (some v) f)).2 := by
  have hfresh := m.fresh_cell s.cells
  obtain ⟨self, hself⟩ : ∃ self, self = m.address s.cells.keys := ⟨_, rfl⟩
  rw [← hself] at hfresh
  have hout : self ∉ nodes := fun ha => hfresh ((h.cells self).mpr ha)
  have hvalue := lookup_absent hmap hne
  let s₁ : DataStore κ ω φ := { s with
    cells := s.cells.insert self ⟨none, ptr, int, some v, f⟩ }
  have hnexts : s₁.nexts = Function.update s.nexts self none :=
    fieldOf_insert _ _ _ _
  have hkeys : s₁.keys = Function.update s.keys self (some (ptr, int)) :=
    fieldOf_insert _ _ _ _
  have hvalues : s₁.values = Function.update s.values self (some (v, f)) :=
    fieldOf_insert _ _ _ _
  have hmem : ∀ a, a ∈ s₁.cells ↔ a = self ∨ a ∈ s.cells := by
    intro a
    exact AList.mem_insert _
  have hload₁ : s₁.load (lastRef nodes) ≠ none :=
    load_ne_none fun a ha => (hmem a).mpr (Or.inr ((h.cells a).mpr ha))
  have hlist₁ : Segment id s₁.nexts s₁.data nodes none := by
    rw [hnexts]
    exact h.list.update fun a ha he => hout (by rw [← he]; exact ha)
  obtain ⟨s', hassign, hlist, hkeys', hvalues', hfreed', hcells'⟩ :=
    splice (s := s₁) (p := some self) [self] hlist₁ h.distinct
      hload₁ ⟨rfl, by rw [hnexts]; exact Function.update_self _ _ _⟩
      (by
        intro a ha
        rw [List.mem_singleton] at ha
        exact ha ▸ hout)
  have hother : ∀ a ∈ nodes, a ≠ self := fun a ha he => hout (he ▸ ha)
  refine ⟨s', ?_, ⟨nodes ++ [self], ⟨hlist, ?_, ?_, ?_, ?_⟩, ?_⟩, ?_⟩
  · rw [DataStore.add, if_neg (by simp), hsearch]
    dsimp only [Option.bind_eq_bind, Option.bind_some]
    rw [hload]
    dsimp only [Option.bind_some]
    rw [← hself, hassign]
    rfl
  · exact List.nodup_append.mpr ⟨h.distinct, by simp, by
      intro a ha b hb
      rw [List.mem_singleton] at hb
      exact hb ▸ hother a ha⟩
  · intro a
    rw [hcells', hmem, h.cells, List.mem_append, List.mem_singleton, or_comm]
  · rw [hkeys', hkeys]
    intro a ha b hb hab
    rw [List.mem_append, List.mem_singleton] at ha hb
    rcases ha with ha | rfl
    · rw [Function.update_of_ne (hother a ha)] at hab
      rcases hb with hb | rfl
      · rw [Function.update_of_ne (hother b hb)] at hab
        exact h.keyed a ha b hb hab
      · rw [Function.update_self] at hab
        exact absurd hab (hne a ha)
    · rw [Function.update_self] at hab
      rcases hb with hb | rfl
      · rw [Function.update_of_ne (hother b hb)] at hab
        exact absurd hab.symm (hne b hb)
      · rfl
  · intro a ha
    rw [hvalues', hvalues, Function.update_apply]
    split
    · exact Option.some_ne_none _
    · next hne' =>
        rw [List.mem_append, List.mem_singleton] at ha
        exact h.filled a (ha.resolve_right hne')
  · intro k w
    rw [hkeys', hkeys, hvalues', hvalues]
    show (d.entries.insert (ptr, int) (v, f)).lookup k = _ ↔ _
    rw [FiniteMap.lookup_insert]
    split
    · next hk =>
        rw [hk]
        constructor
        · intro hw
          exact ⟨self, by simp, Function.update_self _ _ _,
            by rw [Function.update_self, hw]⟩
        · rintro ⟨a, ha, hka, hw⟩
          rw [List.mem_append, List.mem_singleton] at ha
          rcases ha with ha | rfl
          · rw [Function.update_of_ne (hother a ha)] at hka
            exact absurd hka (hne a ha)
          · rw [Function.update_self] at hw
            exact hw
    · next hk =>
        rw [hmap]
        constructor
        · rintro ⟨a, ha, hka, hw⟩
          refine ⟨a, by simp [ha], ?_, ?_⟩
          · rw [Function.update_of_ne (hother a ha), hka]
          · rw [Function.update_of_ne (hother a ha), hw]
        · rintro ⟨a, ha, hka, hw⟩
          rw [List.mem_append, List.mem_singleton] at ha
          rcases ha with ha | rfl
          · rw [Function.update_of_ne (hother a ha)] at hka hw
            exact ⟨a, ha, hka, hw⟩
          · rw [Function.update_self] at hka
            exact absurd (Option.some.inj hka).symm hk
  · rw [hfreed']
    show s.freed = (d.replaced ++ _).filterMap _
    rw [hvalue, hfreed, Option.toList_none, List.append_nil]
    rfl

/-- The node of a key is taken out and freed. -/
theorem get_present (h : s.Holds (front ++ self :: back))
    (hmap : ∀ k v, d.entries.lookup k = some v
      ↔ ∃ a ∈ front ++ self :: back,
        s.keys a = some k ∧ s.values a = some v)
    (hfreed : s.freed = d.freed) (he : s.cells.lookup self = some e)
    (hkey : s.keys self = some (ptr, int))
    (hsearch : s.search ptr int = some (lastRef front))
    (hload : s.load (lastRef front) = some (some self)) :
    ∃ s', s.get ptr int = some (e.opaqueData, s')
      ∧ s'.Represents (d.call (.get ptr int)).2 := by
  obtain ⟨hfront, hback, hnd, hself, hselfb, hdisj⟩ := h.around
  have hload₁ : s.load (lastRef front) ≠ none := by
    rw [hload]
    exact Option.some_ne_none _
  obtain ⟨s₁, hassign, hlist, hkeys, hvalues, hfreed₁, hcells⟩ :=
    splice (p := e.next) back hfront hnd hload₁ (nexts_of_lookup he ▸ hback)
      hdisj
  have hnexts' : fieldOf (s₁.cells.erase self) (·.next)
      = Function.update s₁.nexts self none := fieldOf_erase _ _ _
  have hkeys' : fieldOf (s₁.cells.erase self)
      (fun e => some (e.uniquePtr, e.uniqueInt))
      = Function.update s.keys self none := by
    rw [← hkeys]
    exact fieldOf_erase _ _ _
  have hvalues' : fieldOf (s₁.cells.erase self)
      (fun e => e.opaqueData.map (·, e.freeOpaque))
      = Function.update s.values self none := by
    rw [← hvalues]
    exact fieldOf_erase _ _ _
  have hother : ∀ a ∈ front ++ back, a ≠ self := by
    intro a ha he
    rw [List.mem_append] at ha
    exact ha.elim (fun hf => hself (he ▸ hf)) fun hb => hselfb (he ▸ hb)
  have hin : ∀ a ∈ front ++ back, a ∈ front ++ self :: back := by
    intro a ha
    rw [List.mem_append] at ha
    exact List.mem_append.mpr (ha.imp_right (List.mem_cons_of_mem self))
  refine ⟨{ s₁ with cells := s₁.cells.erase self }, ?_,
    ⟨front ++ back, ⟨?_, ?_, ?_, ?_, ?_⟩, ?_⟩, hfreed₁.trans hfreed⟩
  · rw [DataStore.get, hsearch]
    dsimp only [Option.bind_eq_bind, Option.bind_some]
    rw [hload]
    dsimp only [Option.bind_some]
    rw [he]
    dsimp only [Option.bind_some]
    rw [hassign]
    rfl
  · show Segment id (fieldOf (s₁.cells.erase self) _) s₁.data _ none
    rw [hnexts']
    exact hlist.update hother
  · exact h.distinct.sublist
      ((List.sublist_cons_self self back).append_left front)
  · intro a
    show a ∈ s₁.cells.erase self ↔ _
    rw [AList.mem_erase, hcells, h.cells, List.mem_append, List.mem_cons]
    constructor
    · rintro ⟨hne, ha⟩
      rw [List.mem_append]
      exact ha.imp_right fun hb => hb.resolve_left hne
    · intro ha
      refine ⟨hother a ha, ?_⟩
      rw [List.mem_append] at ha
      exact ha.imp_right Or.inr
  · show ∀ a ∈ front ++ back, ∀ b ∈ front ++ back,
      fieldOf (s₁.cells.erase self) _ a = fieldOf (s₁.cells.erase self) _ b →
        a = b
    rw [hkeys']
    intro a ha b hb hab
    rw [Function.update_of_ne (hother a ha),
      Function.update_of_ne (hother b hb)] at hab
    exact h.keyed a (hin a ha) b (hin b hb) hab
  · intro a ha
    show fieldOf (s₁.cells.erase self) _ a ≠ none
    rw [hvalues', Function.update_of_ne (hother a ha)]
    exact h.filled a (hin a ha)
  · intro k w
    show (d.entries.erase (ptr, int)).lookup k = some w
      ↔ ∃ a ∈ front ++ back, fieldOf (s₁.cells.erase self) _ a = some k
        ∧ fieldOf (s₁.cells.erase self) _ a = some w
    rw [hkeys', hvalues', FiniteMap.lookup_erase]
    split
    · next hk =>
        constructor
        · intro hw
          cases hw
        · rintro ⟨a, ha, hka, -⟩
          rw [Function.update_of_ne (hother a ha), hk, ← hkey] at hka
          exact absurd (h.keyed a (hin a ha) self (by simp) hka)
            (hother a ha)
    · next hk =>
        rw [hmap]
        constructor
        · rintro ⟨a, ha, hka, hw⟩
          have hne : a ≠ self := by
            rintro rfl
            exact hk (Option.some.inj (hka.symm.trans hkey))
          refine ⟨a, ?_, ?_, ?_⟩
          · simp only [List.mem_append, List.mem_cons] at ha ⊢
            exact ha.imp_right fun hb => hb.resolve_left hne
          · rw [Function.update_of_ne hne, hka]
          · rw [Function.update_of_ne hne, hw]
        · rintro ⟨a, ha, hka, hw⟩
          rw [Function.update_of_ne (hother a ha)] at hka hw
          exact ⟨a, hin a ha, hka, hw⟩

-- ======== the calls

/-- Every call does to the store what it does to the map. -/
theorem Represents.call (h : s.Represents d) (m : Malloc)
    (c : DataCall κ ω φ) :
    ∃ s', s.call m c = some ((d.call c).1, s')
      ∧ s'.Represents (d.call c).2 := by
  obtain ⟨⟨nodes, hnodes, hmap⟩, hfreed⟩ := h
  cases c with
  | add ptr int opaqueData f =>
      cases opaqueData with
      | none => exact ⟨s, rfl, ⟨nodes, hnodes, hmap⟩, hfreed⟩
      | some v =>
          have hadd : ∃ s', s.add m ptr int (some v) f = some (0, s')
              ∧ s'.Represents (d.call (.add ptr int (some v) f)).2 := by
            rcases search_run hnodes ptr int with
              ⟨front, self, back, e, rfl, he, hkey, hsearch, hload⟩
                | ⟨hne, hsearch, hload⟩
            · exact add_present hnodes hmap hfreed he hkey hsearch hload
            · exact add_absent hnodes hmap hfreed hne hsearch hload
          obtain ⟨s', hadd, h'⟩ := hadd
          exact ⟨s', by rw [DataStore.call, hadd]; rfl, h'⟩
  | get ptr int =>
      rcases search_run hnodes ptr int with
        ⟨front, self, back, e, rfl, he, hkey, hsearch, hload⟩
          | ⟨hne, hsearch, hload⟩
      · have hvalue := lookup_present hnodes hmap (by simp) hkey
        rw [values_of_lookup he] at hvalue
        obtain ⟨s', hget, h'⟩ :=
          get_present hnodes hmap hfreed he hkey hsearch hload
        refine ⟨s', ?_, h'⟩
        rw [DataStore.call, hget, DataMap.call, hvalue, Option.map_map]
        cases e.opaqueData with
        | none => rfl
        | some v => rfl
      · have hvalue := lookup_absent hmap hne
        have hget : s.get ptr int = some (none, s) := by
          rw [DataStore.get, hsearch]
          dsimp only [Option.bind_eq_bind, Option.bind_some]
          rw [hload]
          rfl
        refine ⟨s, ?_, ⟨nodes, hnodes, ?_⟩, hfreed⟩
        · rw [DataStore.call, hget, DataMap.call, hvalue]
          rfl
        · intro k w
          show (d.entries.erase (ptr, int)).lookup k = some w ↔ _
          rw [← hmap, FiniteMap.lookup_erase]
          split
          · next hk =>
              rw [hk, hvalue]
          · rfl
  | reference ptr int =>
      refine ⟨s, ?_, ⟨nodes, hnodes, hmap⟩, hfreed⟩
      rcases search_run hnodes ptr int with
        ⟨front, self, back, e, rfl, he, hkey, hsearch, hload⟩
          | ⟨hne, hsearch, hload⟩
      · have hvalue := lookup_present hnodes hmap (by simp) hkey
        rw [values_of_lookup he] at hvalue
        have href : s.reference ptr int = some e.opaqueData := by
          rw [DataStore.reference, hsearch]
          dsimp only [Option.bind_eq_bind, Option.bind_some]
          rw [hload]
          dsimp only [Option.bind_some]
          rw [he]
          rfl
        rw [DataStore.call, href, DataMap.call, hvalue, Option.map_map]
        cases e.opaqueData with
        | none => rfl
        | some v => rfl
      · have hvalue := lookup_absent hmap hne
        have href : s.reference ptr int = some none := by
          rw [DataStore.reference, hsearch]
          dsimp only [Option.bind_eq_bind, Option.bind_some]
          rw [hload]
          rfl
        rw [DataStore.call, href, DataMap.call, hvalue]
        rfl

end holds

end DataStore

-- ======== runs

/-- In every run on a request, whatever addresses `malloc` gives out: the
calls answer as those on a finite map do, with one entry for a key, and
`free_opaque` is called for what was replaced, once and in order. What was
added is held, was replaced or was given back to its caller, once. -/
theorem requestData_finiteMap {κ ω φ : Type} [DecidableEq κ] (m : Malloc)
    (calls : List (DataCall κ ω φ)) :
    ∃ s answered d,
      answers (DataStore.call m) {} calls = some (answered, s)
        ∧ allAnswers DataMap.call {} calls = (answered, d)
        ∧ s.Represents d
        ∧ ((calls.zip answered).filterMap DataCall.added).Perm
          ((calls.zip answered).filterMap DataCall.taken
            ++ ((d.entries.entries.map fun e => e.2.1)
              ++ d.replaced.map Prod.fst)) := by
  have h0 : DataStore.Represents ({} : DataStore κ ω φ) {} := by
    refine ⟨⟨[], ⟨rfl, by simp, by simp, by simp, by simp⟩, ?_⟩, rfl⟩
    intro k v
    simp
  obtain ⟨s, hrun, h⟩ := answers_eq (R := DataStore.Represents)
    (fun _ _ c hr => DataStore.Represents.call hr m c) h0 calls
  exact ⟨s, _, _, hrun, rfl, h, DataMap.conserves {} calls⟩

end WinRadius
