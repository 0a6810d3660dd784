/-
The fifo is a bounded queue.

`Holds` is the invariant: the live entries are a list that ends at `NULL`
and carries what is queued, the entries to be used again are another, an
entry on its way from one to the other is loose, and there are no more
entries than these. Each step of a call moves one entry.
-/
import WinRadius.Lib.Calls
import WinRadius.Model.Fifo

namespace WinRadius

open Lib

-- ======== the queue

section queue

variable {α : Type}

/-- A queue of at most `bound` elements, the oldest first: what it answers
to a call, and what it holds then. -/
def queueCall (bound : Int) (q : List α) :
    FifoCall α → FifoAnswer α × List α
  | .push data =>
      if bound ≤ q.length then (.int 0, q) else (.int 1, q ++ [data])
  | .pop => (.data q.head?, q.tail)
  | .peek => (.data q.head?, q)
  | .numElements => (.int q.length, q)

/-- What a call put into the queue. -/
def FifoCall.accepted : FifoCall α × FifoAnswer α → Option α
  | (.push data, .int 1) => some data
  | _ => none

/-- What a call took out of the queue. -/
def FifoCall.taken : FifoCall α × FifoAnswer α → Option α
  | (.pop, .data p) => p
  | _ => none

/-- What was put in comes out in its order, each element once, and the
rest is held. -/
theorem queue_conserves (bound : Int) (q : List α)
    (calls : List (FifoCall α)) :
    q ++ (calls.zip (allAnswers (queueCall bound) q calls).1).filterMap
        FifoCall.accepted
      = (calls.zip (allAnswers (queueCall bound) q calls).1).filterMap
          FifoCall.taken
        ++ (allAnswers (queueCall bound) q calls).2 := by
  induction calls generalizing q with
  | nil => simp [allAnswers]
  | cons c calls ih =>
      have hrest := ih (queueCall bound q c).2
      simp only [allAnswers, List.zip_cons_cons, List.filterMap_cons]
      cases c with
      | push data =>
          by_cases hb : bound ≤ q.length
          · simp only [queueCall, if_pos hb] at hrest ⊢
            simpa [FifoCall.accepted, FifoCall.taken] using hrest
          · simp only [queueCall, if_neg hb] at hrest ⊢
            simpa [FifoCall.accepted, FifoCall.taken] using hrest
      | pop =>
          cases q with
          | nil => simpa [queueCall, FifoCall.accepted, FifoCall.taken]
              using hrest
          | cons x q => simpa [queueCall, FifoCall.accepted, FifoCall.taken]
              using hrest
      | peek =>
          simpa [queueCall, FifoCall.accepted, FifoCall.taken] using hrest
      | numElements =>
          simpa [queueCall, FifoCall.accepted, FifoCall.taken] using hrest

/-- The bound is kept. -/
theorem queue_bounded {bound : Int} {q : List α} (h : (q.length : Int) ≤ bound)
    (calls : List (FifoCall α)) :
    ((allAnswers (queueCall bound) q calls).2.length : Int) ≤ bound := by
  induction calls generalizing q with
  | nil => exact h
  | cons c calls ih =>
      rw [allAnswers]
      apply ih
      cases c with
      | push data =>
          rw [queueCall]
          split
          · exact h
          · rw [List.length_append, List.length_singleton]
            omega
      | pop =>
          rw [queueCall, List.length_tail]
          omega
      | peek => exact h
      | numElements => exact h

end queue

-- ======== the invariant

namespace FrFifo

variable {α : Type}

/-- The links of the entries. -/
def nexts (fi : FrFifo α) : Nat → Option Nat := fieldOf fi.entries (·.next)

/-- The data of the entries. -/
def datas (fi : FrFifo α) : Nat → Option α := fieldOf fi.entries (·.data)

/-- The entries are those of the queue, those to be used again, and loose
ones. -/
structure Holds (fi : FrFifo α) (live loose free : List Nat)
    (q : List α) : Prop where
  queue : Segment id fi.nexts fi.head live none
  spare : Segment id fi.nexts fi.freelist free none
  tail : live ≠ [] → fi.tail = live.getLast?
  distinct : (live ++ loose ++ free).Nodup
  cells : ∀ a, a ∈ fi.entries ↔ a ∈ live ++ loose ++ free
  data : live.map fi.datas = q.map some

/-- The fifo is the queue `q`. -/
def Represents (fi : FrFifo α) (bound : Int) (q : List α) : Prop :=
  fi.maxEntries = bound ∧ fi.numElements = q.length
    ∧ ∃ live free, fi.Holds live [] free q

section holds

variable {fi : FrFifo α} {live loose free : List Nat} {q : List α}
  {entry : Nat} {m : Malloc} {bound : Int}

theorem nexts_store (fi : FrFifo α) (entry : Nat) (e : FrFifoEntry α) :
    (fi.store entry e).nexts = Function.update fi.nexts entry e.next :=
  fieldOf_insert _ _ _ _

theorem datas_store (fi : FrFifo α) (entry : Nat) (e : FrFifoEntry α) :
    (fi.store entry e).datas = Function.update fi.datas entry e.data :=
  fieldOf_insert _ _ _ _

/-- The entries of the lists can be read. -/
theorem Holds.load (h : fi.Holds live loose free q)
    (ha : entry ∈ live ++ loose ++ free) :
    ∃ e, fi.load entry = some e ∧ e.next = fi.nexts entry
      ∧ e.data = fi.datas entry := by
  obtain ⟨e, he⟩ := Option.isSome_iff_exists.mp
    (AList.lookup_isSome.mpr ((h.cells entry).mpr ha))
  refine ⟨e, he, ?_, ?_⟩
  · unfold nexts fieldOf
    rw [he]
    rfl
  · unfold datas fieldOf
    rw [he]
    rfl

/-- A loose entry is written. -/
theorem Holds.storeLoose (h : fi.Holds live [entry] free q)
    (e : FrFifoEntry α) : (fi.store entry e).Holds live [entry] free q := by
  have hd := h.distinct
  rw [List.append_assoc, List.nodup_append] at hd
  obtain ⟨-, hfree, hlive⟩ := hd
  have hout : ∀ a ∈ live, id a ≠ entry :=
    fun a ha => hlive a ha entry (by simp)
  have hout' : ∀ a ∈ free, id a ≠ entry := by
    intro a ha he
    cases he
    simp at hfree
    exact hfree.1 ha
  refine ⟨?_, ?_, h.tail, h.distinct, ?_, ?_⟩
  · rw [nexts_store]
    exact h.queue.update hout
  · rw [nexts_store]
    exact h.spare.update hout'
  · intro a
    rw [← h.cells a]
    show a ∈ fi.entries.insert entry e ↔ _
    rw [AList.mem_insert]
    constructor
    · rintro (rfl | ha)
      · exact (h.cells a).mpr (by simp)
      · exact ha
    · exact Or.inr
  · rw [datas_store, ← h.data]
    apply List.map_congr_left
    intro a ha
    exact Function.update_of_ne (hout a ha) _ _

/-- `fr_fifo_alloc_entry` makes a loose entry, all of it zero. -/
theorem Holds.allocEntry (h : fi.Holds live [] free q) (m : Malloc) :
    ∃ entry fi' free', fi.allocEntry m = some (entry, fi')
      ∧ fi'.Holds live [entry] free' q ∧ fi'.load entry = some {}
      ∧ fi'.maxEntries = fi.maxEntries
      ∧ fi'.numElements = fi.numElements := by
  cases free with
  | nil =>
      have hnone : fi.freelist = none := h.spare
      have hfresh := m.fresh_cell fi.entries
      have hout : m.address fi.entries.keys ∉ live := by
        intro ha
        exact hfresh ((h.cells _).mpr (by simpa using ha))
      have halloc : fi.allocEntry m
          = some (m.address fi.entries.keys,
            fi.store (m.address fi.entries.keys) {}) := by
        rw [FrFifo.allocEntry, hnone]
      refine ⟨_, _, [], halloc, ?_, AList.lookup_insert _, rfl, rfl⟩
      refine ⟨?_, ?_, h.tail, ?_, ?_, ?_⟩
      · rw [nexts_store]
        exact h.queue.update fun a ha he => hout (he ▸ ha)
      · exact hnone
      · have hd := h.distinct
        simp only [List.append_nil] at hd ⊢
        exact List.nodup_append.mpr ⟨hd, by simp, by
          intro a ha b hb hab
          rw [List.mem_singleton] at hb
          exact hout (hb ▸ hab ▸ ha)⟩
      · intro a
        show a ∈ fi.entries.insert _ _ ↔ _
        rw [AList.mem_insert, h.cells a]
        simp [or_comm]
      · rw [datas_store, ← h.data]
        apply List.map_congr_left
        intro a ha
        have hne : a ≠ m.address fi.entries.keys := by
          rintro rfl
          exact hout ha
        exact Function.update_of_ne hne _ _
  | cons entry free =>
      obtain ⟨hhead, hrest⟩ := h.spare
      obtain ⟨e, he, hnext, -⟩ := h.load (show entry ∈ _ by simp)
      have hloose : ({ fi with freelist := e.next } : FrFifo α).Holds live
          [entry] free q := by
        refine ⟨h.queue, ?_, h.tail, ?_, ?_, h.data⟩
        · rw [hnext]
          exact hrest
        · simpa using h.distinct
        · simpa using h.cells
      have halloc : fi.allocEntry m
          = some (entry, { fi with freelist := e.next }.store entry {}) := by
        rw [FrFifo.allocEntry, hhead]
        dsimp only
        rw [he]
        rfl
      exact ⟨entry, _, free, halloc, hloose.storeLoose {},
        AList.lookup_insert _, rfl, rfl⟩

/-- A loose entry is linked behind the queue. -/
theorem Holds.link (h : fi.Holds live [entry] free q) {x : α}
    (hentry : fi.load entry = some { data := some x }) (n : Int) :
    ∃ fi', fi.link entry = some fi'
      ∧ Holds { fi' with tail := some entry, numElements := n }
        (live ++ [entry]) [] free (q ++ [x])
      ∧ fi'.maxEntries = fi.maxEntries
      ∧ fi'.numElements = fi.numElements := by
  have hnext : fi.nexts entry = none := by
    unfold nexts fieldOf
    rw [show fi.entries.lookup entry = _ from hentry]
    rfl
  have hdata : fi.datas entry = some x := by
    unfold datas fieldOf
    rw [show fi.entries.lookup entry = _ from hentry]
    rfl
  have hd := h.distinct
  rw [List.append_assoc, List.nodup_append] at hd
  obtain ⟨hnd, hfree, hlive⟩ := hd
  have hout : entry ∉ live := fun ha => hlive entry ha entry (by simp) rfl
  rcases List.eq_nil_or_concat live with rfl | ⟨front, last, rfl⟩
  · have hhead : fi.head = none := h.queue
    refine ⟨{ fi with head := some entry }, by rw [FrFifo.link, hhead],
      ⟨⟨rfl, hnext⟩, h.spare, fun _ => rfl, ?_, ?_, ?_⟩, rfl, rfl⟩
    · simpa using h.distinct
    · simpa using h.cells
    · have hq := h.data
      rw [List.map_nil, eq_comm, List.map_eq_nil_iff] at hq
      rw [hq]
      exact congrArg (· :: []) hdata
  · rw [List.concat_eq_append] at *
    have hne : last ≠ entry := by
      intro he
      exact hout (by simp [he])
    obtain ⟨e, he, hlnext, hldata⟩ := h.load (show last ∈ _ by simp)
    have htail : fi.tail = some last := by
      rw [h.tail (by simp), List.getLast?_append, List.getLast?_singleton]
      rfl
    have hhead : ∃ first, fi.head = some first := by
      cases front with
      | nil => exact ⟨last, h.queue.1⟩
      | cons first front => exact ⟨first, h.queue.1⟩
    obtain ⟨first, hfirst⟩ := hhead
    have hlink : fi.link entry
        = some (fi.store last { e with next := some entry }) := by
      rw [FrFifo.link, hfirst]
      dsimp only
      rw [htail]
      show (fi.load last).bind _ = _
      rw [he]
      rfl
    have hdatas : Function.update fi.datas last e.data = fi.datas := by
      rw [hldata]
      exact Function.update_eq_self _ _
    have hfront : ∀ a ∈ front, id a ≠ last := by
      rw [List.nodup_append] at hnd
      exact fun a ha => hnd.2.2 a ha last (by simp)
    refine ⟨_, hlink, ⟨?_, ?_, ?_, ?_, ?_, ?_⟩, rfl, rfl⟩
    · show Segment id (fi.store last _).nexts fi.head _ none
      rw [nexts_store, segment_append]
      refine ⟨some entry, h.queue.redirect hfront, rfl, ?_⟩
      exact (Function.update_of_ne hne.symm _ _).trans hnext
    · show Segment id (fi.store last _).nexts fi.freelist _ none
      rw [nexts_store]
      apply h.spare.update
      intro a ha hl
      exact hlive last (by simp) last (by simp [← hl, ha]) rfl
    · intro _
      simp
    · simpa using h.distinct
    · intro a
      show a ∈ fi.entries.insert last _ ↔ _
      rw [AList.mem_insert, h.cells a]
      simp only [List.mem_append, List.mem_singleton, List.append_nil]
      tauto
    · show List.map (fi.store last _).datas _ = _
      rw [datas_store, hdatas, List.map_append, h.data, List.map_append]
      exact congrArg (q.map some ++ [·]) hdata

/-- `fr_fifo_free_entry` puts a loose entry in front of those to be used
again. -/
theorem Holds.freeEntry (h : fi.Holds live [entry] free q) :
    ∃ fi', fi.freeEntry entry = some fi'
      ∧ (∀ n, Holds { fi' with numElements := n } live [] (entry :: free) q)
      ∧ fi'.maxEntries = fi.maxEntries ∧ fi'.head = fi.head
      ∧ fi'.numElements = fi.numElements := by
  obtain ⟨e, he, -, -⟩ := h.load (show entry ∈ _ by simp)
  have hfree : fi.freeEntry entry
      = some { fi.store entry { next := fi.freelist, data := none } with
          freelist := some entry } := by
    rw [FrFifo.freeEntry, he]
    rfl
  have hs := h.storeLoose { next := fi.freelist, data := none }
  refine ⟨_, hfree, fun n => ⟨hs.queue, ⟨rfl, ?_⟩, h.tail, ?_, ?_, hs.data⟩,
    rfl, rfl, rfl⟩
  · have hspare := hs.spare
    show Segment id (fi.store entry _).nexts
      ((fi.store entry _).nexts entry) free none
    rw [nexts_store, Function.update_self, ← nexts_store]
    exact hspare
  · simpa using h.distinct
  · simpa using hs.cells

-- ======== the calls

/-- `fr_fifo_push` of data that is not `NULL`. -/
theorem Represents.push (h : fi.Represents bound q) (m : Malloc) (x : α) :
    ∃ fi', fi.call m (.push x)
        = some ((queueCall bound q (.push x)).1, fi')
      ∧ fi'.Represents bound (queueCall bound q (.push x)).2 := by
  obtain ⟨hmax, hnum, live, free, hholds⟩ := h
  by_cases hfull : bound ≤ q.length
  · have hpush : fi.push m (some x) = some (0, fi) := by
      rw [FrFifo.push, if_neg (by simp), if_pos (by rw [hmax, hnum]; exact hfull)]
    rw [queueCall, if_pos hfull, FrFifo.call, hpush]
    exact ⟨fi, rfl, hmax, hnum, live, free, hholds⟩
  · obtain ⟨entry, fi₁, free₁, halloc, h₁, hload, hmax₁, hnum₁⟩ :=
      hholds.allocEntry m
    obtain ⟨fi₂, hlink, h₂, hmax₂, hnum₂⟩ :=
      (h₁.storeLoose { data := some x }).link (x := x)
        (AList.lookup_insert _) (fi₁.numElements + 1)
    have hpush : fi.push m (some x) = some (1, { fi₂ with
        tail := some entry
        numElements := fi₂.numElements + 1 }) := by
      rw [FrFifo.push, if_neg (by simp), if_neg (by rw [hmax, hnum]; exact hfull),
        halloc]
      dsimp only [Option.bind_eq_bind, Option.bind_some]
      rw [hload]
      dsimp only [Option.bind_some]
      rw [hlink]
      rfl
    rw [queueCall, if_neg hfull, FrFifo.call, hpush]
    refine ⟨_, rfl, ?_, ?_, live ++ [entry], free₁, ?_⟩
    · exact hmax₂.trans (hmax₁.trans hmax)
    · show fi₂.numElements + 1 = _
      rw [hnum₂, List.length_append, List.length_singleton]
      show fi₁.numElements + 1 = _
      rw [hnum₁, hnum]
      rfl
    · rw [show fi₂.numElements = fi₁.numElements from hnum₂]
      exact h₂

/-- `fr_fifo_peek`. -/
theorem Represents.peek (h : fi.Represents bound q) :
    fi.peek = some q.head? := by
  obtain ⟨-, -, live, free, hholds⟩ := h
  have hdata := hholds.data
  cases live with
  | nil =>
      have hhead : fi.head = none := hholds.queue
      rw [List.map_nil, eq_comm, List.map_eq_nil_iff] at hdata
      rw [FrFifo.peek, hhead, hdata]
      rfl
  | cons entry live =>
      have hhead : fi.head = some entry := hholds.queue.1
      obtain ⟨e, he, -, hed⟩ := hholds.load (show entry ∈ _ by simp)
      cases q with
      | nil => simp at hdata
      | cons x q =>
          rw [List.map_cons, List.map_cons, List.cons.injEq] at hdata
          rw [FrFifo.peek, hhead]
          dsimp only
          rw [he]
          exact congrArg some (hed.trans hdata.1)

/-- `fr_fifo_pop`. -/
theorem Represents.pop (h : fi.Represents bound q) :
    ∃ fi', fi.pop = some (q.head?, fi') ∧ fi'.Represents bound q.tail := by
  obtain ⟨hmax, hnum, live, free, hholds⟩ := h
  have hdata := hholds.data
  cases live with
  | nil =>
      have hhead : fi.head = none := hholds.queue
      rw [List.map_nil, eq_comm, List.map_eq_nil_iff] at hdata
      subst hdata
      refine ⟨fi, ?_, hmax, hnum, [], free, hholds⟩
      rw [FrFifo.pop, hhead]
      rfl
  | cons entry live =>
      obtain ⟨hhead, hrest⟩ := hholds.queue
      obtain ⟨e, he, hnext, hed⟩ := hholds.load (show entry ∈ _ by simp)
      cases q with
      | nil => simp at hdata
      | cons x q =>
          rw [List.map_cons, List.map_cons, List.cons.injEq] at hdata
          have hloose : ({ fi with head := e.next } : FrFifo α).Holds live
              [entry] free q := by
            refine ⟨?_, hholds.spare, ?_, ?_, ?_, hdata.2⟩
            · rw [hnext]
              exact hrest
            · intro hne
              have htail := hholds.tail (by simp)
              rw [List.getLast?_cons_of_ne_nil hne] at htail
              exact htail
            · have hd := hholds.distinct
              rw [List.append_nil, List.cons_append] at hd
              rw [List.append_assoc]
              exact List.perm_middle.nodup_iff.mpr hd
            · intro a
              rw [hholds.cells a]
              simp only [List.mem_append, List.mem_cons, List.not_mem_nil,
                or_false]
              tauto
          obtain ⟨fi', hfree, h', hmax', hhead', hnum'⟩ := hloose.freeEntry
          have hpop : fi.pop = some (some x,
              if fi'.head.isNone then
                { fi' with tail := none, numElements := 0 }
              else { fi' with numElements := fi'.numElements - 1 }) := by
            rw [FrFifo.pop, hhead]
            dsimp only
            rw [he]
            dsimp only [Option.bind_eq_bind, Option.bind_some]
            rw [hfree, hed.trans hdata.1]
            rfl
          refine ⟨_, hpop, ?_⟩
          split
          · next hempty =>
              have hnil : live = [] := by
                cases live with
                | nil => rfl
                | cons a live =>
                    have hsome : fi'.head = some a := (h' 0).queue.1
                    rw [hsome] at hempty
                    cases hempty
              subst hnil
              have hq : q = [] := by
                have hq := (h' 0).data
                rw [List.map_nil, eq_comm, List.map_eq_nil_iff] at hq
                exact hq
              subst hq
              refine ⟨hmax'.trans hmax, rfl, [], entry :: free, ?_⟩
              exact ⟨(h' 0).queue, (h' 0).spare, fun hne => absurd rfl hne,
                (h' 0).distinct, (h' 0).cells, (h' 0).data⟩
          · refine ⟨hmax'.trans hmax, ?_, live, entry :: free, h' _⟩
            show fi'.numElements - 1 = _
            rw [hnum', show ({ fi with head := e.next } : FrFifo α).numElements
              = fi.numElements from rfl, hnum, List.length_cons, List.tail_cons]
            omega

/-- Every call does to the fifo what it does to the queue. -/
theorem Represents.call (h : fi.Represents bound q) (m : Malloc)
    (c : FifoCall α) :
    ∃ fi', fi.call m c = some ((queueCall bound q c).1, fi')
      ∧ fi'.Represents bound (queueCall bound q c).2 := by
  cases c with
  | push x => exact h.push m x
  | pop =>
      obtain ⟨fi', hpop, h'⟩ := h.pop
      exact ⟨fi', by rw [FrFifo.call, hpop]; rfl, h'⟩
  | peek => exact ⟨fi, by rw [FrFifo.call, h.peek]; rfl, h⟩
  | numElements =>
      refine ⟨fi, ?_, h⟩
      rw [FrFifo.call, h.2.1]
      rfl

end holds

end FrFifo

-- ======== runs

/-- A new fifo is the empty queue. -/
theorem frFifoCreate_represents {α : Type} {maxEntries : Int}
    {fi : FrFifo α} (h : frFifoCreate maxEntries = some fi) :
    fi.Represents maxEntries [] := by
  unfold frFifoCreate at h
  split at h
  · cases h
  · cases h
    exact ⟨rfl, rfl, [], [], rfl, rfl, fun hne => absurd rfl hne, by simp,
      by simp, rfl⟩

/-- In every run, whatever addresses `malloc` gives out: the calls on a
fifo answer as those on a bounded queue do. Each element that was put in
has come out, in order and once, or is held. -/
theorem frFifo_boundedQueue {α : Type} (m : Malloc) {maxEntries : Int}
    {fi : FrFifo α} (h : frFifoCreate maxEntries = some fi)
    (calls : List (FifoCall α)) :
    ∃ fi' answered held,
      answers (FrFifo.call m) fi calls = some (answered, fi')
        ∧ allAnswers (queueCall maxEntries) [] calls = (answered, held)
        ∧ fi'.Represents maxEntries held
        ∧ (held.length : Int) ≤ maxEntries
        ∧ (calls.zip answered).filterMap FifoCall.accepted
          = (calls.zip answered).filterMap FifoCall.taken ++ held := by
  have h0 := frFifoCreate_represents h
  obtain ⟨fi', hrun, h'⟩ := answers_eq
    (fun _ _ c hr => FrFifo.Represents.call hr m c) h0 calls
  have hbound : ((([] : List α).length : Nat) : Int) ≤ maxEntries := by
    unfold frFifoCreate at h
    split at h
    · cases h
    · simp only [List.length_nil]
      omega
  exact ⟨fi', _, _, hrun, rfl, h', queue_bounded hbound calls,
    queue_conserves maxEntries [] calls⟩

/-- Two pushes, a third that fails, and entries that are used again. -/
theorem frFifo_boundedQueue_two :
    ∃ fi' answered held,
      answers (FrFifo.call .above) { maxEntries := 2 }
          [.push 1, .push 2, .push 3, .pop, .push 4, .peek]
        = some (answered, fi')
        ∧ allAnswers (queueCall 2) []
          [.push 1, .push 2, .push 3, .pop, .push 4, .peek]
          = (answered, held)
        ∧ fi'.Represents 2 held
        ∧ (held.length : Int) ≤ 2
        ∧ ([FifoCall.push 1, .push 2, .push 3, .pop, .push 4,
            .peek].zip answered).filterMap FifoCall.accepted
          = ([FifoCall.push 1, .push 2, .push 3, .pop, .push 4,
            .peek].zip answered).filterMap FifoCall.taken ++ held :=
  frFifo_boundedQueue .above rfl _

end WinRadius
