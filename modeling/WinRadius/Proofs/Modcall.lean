/-
The machine of `modcall` is the recursive interpreter of its tree.

`interpNode` reads a `modcallable` recursively: a child settles the result
of its group by its action, a group runs its children in turn. The flags
of the last `if` are variables of the whole run, as they are in the
machine, and go with the state.

A run of the machine from a child leads to what follows it: the next
section of the same group, or the return from it (`FlowsTo`). By induction
on the room on the stack, and along the children of a group, that is the
flow of the interpreter (`interpNode_flowsTo`).
-/
import WinRadius.Model.Modcall

namespace WinRadius

open Lib

variable {σ : Type} (ext : ModExternals σ)

-- ======== the interpreter

/-- What a child comes to: the next one, or the end of its group. -/
inductive ModFlow (σ : Type) where
  | next (ctl : ModControl σ) (priority : Int) (result : RlmModule)
  | leave (ctl : ModControl σ) (result : RlmModule)

/-- The action of a child on the result of its group. -/
def settleResult (child : Modcallable) (ctl : ModControl σ) (priority : Int)
    (result : RlmModule) : ModFlow σ :=
  let action := child.mc.actions ctl.myresult
  if action = modActionReturn then .leave ctl ctl.myresult
  else if action = modActionReject then .leave ctl .reject
  else if priority ≤ action then .next ctl action ctl.myresult
  else .next ctl priority result

/-- The children of a group one after the other. -/
def interpList (interp : Modcallable → ModControl σ → Int → RlmModule →
    Except (ModEnd σ) (ModFlow σ)) : List Modcallable → ModControl σ →
    Int → RlmModule → Except (ModEnd σ) (ModControl σ × RlmModule)
  | [], ctl, _, result => return (ctl, result)
  | child :: rest, ctl, priority, result => do
      match ← interp child ctl priority result with
      | .next ctl priority result => interpList interp rest ctl priority result
      | .leave ctl result => return (ctl, result)

/-- The children that are run, in this order, where `i` is chosen. -/
def inTurn (type : GroupType) (children : List Modcallable) (i : Nat) :
    List Modcallable :=
  match type with
  | .modSwitch | .modLoadBalance => (children.drop i).take 1
  | .modRedundantLoadBalance => children.drop i ++ children.take i
  | _ => children.drop i

/-- A group is left. -/
def leftGroup (parent : Option GroupType) (result : RlmModule)
    (ctl : ModControl σ) : ModControl σ :=
  { ctl with myresult := result, wasIf := isIf parent
             ifTaken := isIf parent }

/-- A group; where it has no child to run, the flags are set as its
parent is. -/
def interpGroup (interp : Modcallable → ModControl σ → Int → RlmModule →
    Except (ModEnd σ) (ModFlow σ)) (component : RlmComponent)
    (parent : Option GroupType) (mc : ModHead) (type : GroupType)
    (children : List Modcallable) (ctl : ModControl σ) :
    Except (ModEnd σ) (ModControl σ) :=
  match chooseChild ext mc type children ctl.request with
  | none => throw (.exited ctl.request)
  | some (none, request) =>
      return leftGroup parent (defaultComponentResults component)
        { ctl with request := request }
  | some (some i, request) => do
      let (ctl, result) ← interpList interp (inTurn type children i)
        { ctl with request := request } 0 (defaultComponentResults component)
      return leftGroup (some type) result ctl

/-- What follows a group that is left: `modcall` returns where it was
called with it. -/
def afterGroup (parent : Option GroupType) (child : Modcallable)
    (ctl : ModControl σ) (priority : Int) (result : RlmModule) :
    Except (ModEnd σ) (ModFlow σ) :=
  match parent with
  | none => throw (.returned ctl.myresult ctl.request)
  | some _ => return settleResult child ctl priority result

/-- A child in a group of type `parent`, with room for `depth` levels. -/
def interpNode (component : RlmComponent) (depth : Nat)
    (parent : Option GroupType) (child : Modcallable) (ctl : ModControl σ)
    (priority : Int) (result : RlmModule) :
    Except (ModEnd σ) (ModFlow σ) :=
  if ctl.request.stopProcessing then throw (.returned .fail ctl.request)
  else
    match child with
    | .group mc type children =>
        let ctl := if type = .modElse ∨ type = .modElsif then
          { ctl with myresult := result } else ctl
        if skips type ctl then return settleResult child ctl priority result
        else
          match conditionHolds ext mc type ctl with
          | (false, ctl) =>
              return .next { ctl with wasIf := true, ifTaken := false }
                priority ctl.myresult
          | (true, ctl) =>
              match depth with
              | 0 => throw (.exited ctl.request)
              | depth + 1 => do
                  let ctl ← interpGroup ext
                    (interpNode component depth (some type)) component
                    parent mc type children ctl
                  afterGroup parent child ctl priority result
    | leaf =>
        let ctl := callChild ext component leaf ctl
        return settleResult child ctl priority result

/-- `modcall`, recursively. -/
def interp (component : RlmComponent) (c : Option Modcallable)
    (request : ModRequest σ) : ModEnd σ :=
  let result := defaultComponentResults component
  match c with
  | none =>
      .returned (if request.stopProcessing then .fail else result) request
  | some c =>
      match interpNode ext component (modcallStackMax - 1) none c
        { request := request, myresult := result
          wasIf := false, ifTaken := false } 0 result with
      | .error e => e
      | .ok (.next ctl _ result) => .returned result ctl.request
      | .ok (.leave ctl _) => .exited ctl.request

-- ======== the rounds

section rounds

variable {ext : ModExternals σ} {component : RlmComponent}

/-- Some rounds of the loop lead from `x` to `y`. -/
def RoundsTo (ext : ModExternals σ) (component : RlmComponent)
    (x y : ModNext σ) : Prop :=
  ∃ n, ∀ k, modLoop ext component (n + k) x = modLoop ext component k y

theorem RoundsTo.refl (x : ModNext σ) : RoundsTo ext component x x :=
  ⟨0, fun k => by rw [Nat.zero_add]⟩

theorem RoundsTo.trans {x y z : ModNext σ} (h : RoundsTo ext component x y)
    (h' : RoundsTo ext component y z) : RoundsTo ext component x z := by
  obtain ⟨n, hn⟩ := h
  obtain ⟨m, hm⟩ := h'
  exact ⟨n + m, fun k => by rw [Nat.add_assoc, hn, hm]⟩

theorem roundsTo_step (ctl : ModControl σ) (top : ModFrame)
    (below : List ModFrame) :
    RoundsTo ext component (.loop ctl top below)
      (modStep ext component ctl top below) :=
  ⟨1, fun k => by rw [Nat.add_comm]; rfl⟩

/-- What follows a child in the machine where the interpreter has a
flow. -/
def FlowsTo (ext : ModExternals σ) (component : RlmComponent)
    (x : ModNext σ) (below : List ModFrame) (top : ModFrame)
    (child : Cursor) : Except (ModEnd σ) (ModFlow σ) → Prop
  | .error e => RoundsTo ext component x (.ended e)
  | .ok (.next ctl priority result) => RoundsTo ext component x
      (nextSection (doReturn below) ctl
        { top with priority := priority, result := result } below child)
  | .ok (.leave ctl result) => RoundsTo ext component x
      (doReturn below ctl { top with result := result, children := none }
        child.parent)

/-- A group that is left in the machine. -/
def ListLeaves (ext : ModExternals σ) (component : RlmComponent)
    (x : ModNext σ) (below : List ModFrame) (type : GroupType) :
    Except (ModEnd σ) (ModControl σ × RlmModule) → Prop
  | .error e => RoundsTo ext component x (.ended e)
  | .ok (ctl, result) => ∃ top : ModFrame, top.result = result
      ∧ RoundsTo ext component x (doReturn below ctl top (some type))

variable {x y : ModNext σ} {below : List ModFrame} {top : ModFrame}
  {child : Cursor} {ctl : ModControl σ} {type : GroupType}

theorem FlowsTo.head {flow : Except (ModEnd σ) (ModFlow σ)}
    (h : RoundsTo ext component x y)
    (hy : FlowsTo ext component y below top child flow) :
    FlowsTo ext component x below top child flow := by
  cases flow with
  | error e => exact h.trans hy
  | ok flow =>
      cases flow with
      | next ctl priority result => exact h.trans hy
      | leave ctl result => exact h.trans hy

theorem ListLeaves.head {left : Except (ModEnd σ) (ModControl σ × RlmModule)}
    (h : RoundsTo ext component x y)
    (hy : ListLeaves ext component y below type left) :
    ListLeaves ext component x below type left := by
  cases left with
  | error e => exact h.trans hy
  | ok left =>
      obtain ⟨top, hresult, hleads⟩ := hy
      exact ⟨top, hresult, h.trans hleads⟩

/-- The action of a child is its flow. -/
theorem unroll_flowsTo (ctl : ModControl σ) (top : ModFrame)
    (below : List ModFrame) (child : Cursor) :
    FlowsTo ext component (unroll (doReturn below) ctl top below child)
      below top child
      (.ok (settleResult child.node ctl top.priority top.result)) := by
  unfold unroll settleResult
  dsimp only
  split
  · exact RoundsTo.refl _
  · split
    · exact RoundsTo.refl _
    · split
      · exact RoundsTo.refl _
      · exact RoundsTo.refl _

-- ======== in turn

/-- The children that the machine comes to from a pointer on. -/
inductive Turn (type : GroupType) (start : Option Cursor) :
    Cursor → List Modcallable → Prop
  | last {child : Cursor} (hp : child.parent = some type)
      (h : nextChild type child start = none) :
      Turn type start child [child.node]
  | more {child next : Cursor} {l : List Modcallable}
      (hp : child.parent = some type)
      (h : nextChild type child start = some next)
      (hrest : Turn type start next l) :
      Turn type start child (child.node :: l)

theorem interpList_leaves {start : Option Cursor} {l : List Modcallable}
    {interp : Modcallable → ModControl σ → Int → RlmModule →
      Except (ModEnd σ) (ModFlow σ)}
    (hnode : ∀ ctl top child, top.children = some child →
      child.parent = some type →
      FlowsTo ext component (.loop ctl top below) below top child
        (interp child.node ctl top.priority top.result))
    (hturn : Turn type start child l) (ctl : ModControl σ) (top : ModFrame)
    (htop : top.children = some child) (hstart : top.start = start) :
    ListLeaves ext component (.loop ctl top below) below type
      (interpList interp l ctl top.priority top.result) := by
  induction hturn generalizing ctl top with
  | @last child hp hnone =>
      have hone := hnode ctl top child htop hp
      rw [interpList]
      cases hflow : interp child.node ctl top.priority top.result with
      | error e =>
          rw [hflow] at hone
          exact hone
      | ok flow =>
          rw [hflow] at hone
          cases flow with
          | next ctl' priority result =>
              refine ⟨{ top with
                priority := priority, result := result, children := none },
                rfl, RoundsTo.trans hone ?_⟩
              rw [nextSection, hp]
              dsimp only
              rw [hstart, hnone]
              exact RoundsTo.refl _
          | leave ctl' result =>
              rw [FlowsTo, hp] at hone
              exact ⟨{ top with result := result, children := none }, rfl,
                hone⟩
  | @more child next l hp hnext hrest ih =>
      have hone := hnode ctl top child htop hp
      rw [interpList]
      cases hflow : interp child.node ctl top.priority top.result with
      | error e =>
          rw [hflow] at hone
          exact hone
      | ok flow =>
          rw [hflow] at hone
          cases flow with
          | next ctl' priority result =>
              refine ListLeaves.head (RoundsTo.trans hone ?_)
                (ih ctl' { top with
                  priority := priority, result := result
                  children := some next } rfl hstart)
              rw [nextSection, hp]
              dsimp only
              rw [hstart, hnext]
              exact RoundsTo.refl _
          | leave ctl' result =>
              rw [FlowsTo, hp] at hone
              exact ⟨{ top with result := result, children := none }, rfl,
                hone⟩

end rounds

section turn

variable {type : GroupType} {children : List Modcallable} {i j : Nat}

theorem at?_of_lt (parent : Option GroupType) (h : i < children.length) :
    Cursor.at? parent children i = some ⟨parent, children, i, h⟩ :=
  dif_pos h

theorem at?_of_le (parent : Option GroupType) (h : children.length ≤ i) :
    Cursor.at? parent children i = none :=
  dif_neg (not_lt.mpr h)

/-- The types whose children are run up to the last. -/
def GroupType.Forward (type : GroupType) : Prop :=
  ∀ child start, nextChild type child start = child.next

theorem turn_forward (hf : type.Forward) (start : Option Cursor)
    (h : i < children.length) :
    Turn type start ⟨some type, children, i, h⟩ (children.drop i) := by
  obtain ⟨k, hk⟩ : ∃ k, children.length = i + 1 + k :=
    ⟨children.length - (i + 1), by omega⟩
  induction k generalizing i with
  | zero =>
      have hnone : nextChild type ⟨some type, children, i, h⟩ start
          = none := by
        rw [hf]
        exact at?_of_le _ (by dsimp only; omega)
      rw [List.drop_eq_getElem_cons h, List.drop_eq_nil_of_le (by omega)]
      exact .last rfl hnone
  | succ k ih =>
      have hlt : i + 1 < children.length := by omega
      rw [List.drop_eq_getElem_cons h]
      refine .more rfl ?_ (ih hlt (by omega))
      rw [hf]
      exact at?_of_lt _ hlt

theorem nextChild_cycle {child start next : Cursor}
    (h : (child.next <|> Cursor.at? child.parent child.siblings 0)
      = some next) :
    nextChild .modRedundantLoadBalance child (some start)
      = if next.index = start.index then none else some next := by
  unfold nextChild
  dsimp only
  rw [h]
  exact if_congr Option.some_inj rfl rfl

/-- The place of a child of a redundant-load-balance group. -/
def cyclic (children : List Modcallable) (j : Nat)
    (h : j < children.length) : Cursor :=
  ⟨some .modRedundantLoadBalance, children, j, h⟩

theorem cyclic_next (h : j + 1 < children.length) :
    ((cyclic children j (Nat.lt_of_succ_lt h)).next
      <|> Cursor.at? (some .modRedundantLoadBalance) children 0)
      = some (cyclic children (j + 1) h) := by
  rw [Cursor.next]
  show (Cursor.at? _ children (j + 1) <|> _) = _
  rw [at?_of_lt _ h]
  rfl

/-- In front of the child that was chosen. -/
theorem turn_front (hi : i < children.length) (hj : j < i) :
    Turn .modRedundantLoadBalance (some (cyclic children i hi))
      (cyclic children j (hj.trans hi)) ((children.take i).drop j) := by
  obtain ⟨k, hk⟩ : ∃ k, i = j + 1 + k := ⟨i - (j + 1), by omega⟩
  induction k generalizing j with
  | zero =>
      have hnext := @nextChild_cycle _ (cyclic children i hi) _
        (@cyclic_next children j (by omega))
      rw [List.drop_eq_getElem_cons (by rw [List.length_take]; omega),
        List.getElem_take,
        List.drop_eq_nil_of_le (by rw [List.length_take]; omega)]
      exact .last rfl (hnext.trans (if_pos hk.symm))
  | succ k ih =>
      have hlt : j + 1 < i := by omega
      have hnext := @nextChild_cycle _ (cyclic children i hi) _
        (cyclic_next (hlt.trans hi))
      rw [List.drop_eq_getElem_cons (by rw [List.length_take]; omega),
        List.getElem_take]
      exact .more rfl (hnext.trans (if_neg (Nat.ne_of_lt hlt)))
        (ih hlt (by omega))

/-- From the child that was chosen to the end, and on from the start. -/
theorem turn_back (hi : i < children.length) (hij : i ≤ j)
    (hj : j < children.length) :
    Turn .modRedundantLoadBalance (some (cyclic children i hi))
      (cyclic children j hj) (children.drop j ++ children.take i) := by
  obtain ⟨k, hk⟩ : ∃ k, children.length = j + 1 + k :=
    ⟨children.length - (j + 1), by omega⟩
  induction k generalizing j with
  | zero =>
      have hwrap : ((cyclic children j hj).next
          <|> Cursor.at? (some .modRedundantLoadBalance) children 0)
            = some (cyclic children 0 (by omega)) := by
        rw [Cursor.next]
        show (Cursor.at? _ children (j + 1) <|> _) = _
        rw [at?_of_le _ (by omega), at?_of_lt _ (by omega)]
        rfl
      have hnext := @nextChild_cycle _ (cyclic children i hi) _ hwrap
      rw [List.drop_eq_getElem_cons hj, List.drop_eq_nil_of_le (by omega)]
      rcases Nat.eq_zero_or_pos i with rfl | hpos
      · rw [List.take_zero]
        exact .last rfl (hnext.trans (if_pos rfl))
      · have hfront := turn_front hi hpos
        rw [List.drop_zero] at hfront
        exact .more rfl (hnext.trans (if_neg (Nat.ne_of_lt hpos))) hfront
  | succ k ih =>
      have hlt : j + 1 < children.length := by omega
      have hnext := @nextChild_cycle _ (cyclic children i hi) _
        (cyclic_next hlt)
      rw [List.drop_eq_getElem_cons hj]
      refine .more rfl (hnext.trans (if_neg ?_))
        (ih (by omega) hlt (by omega))
      show j + 1 ≠ i
      omega

/-- The children of a group are run in turn. -/
theorem turn_inTurn (type : GroupType) (hi : i < children.length) :
    Turn type (some ⟨some type, children, i, hi⟩)
      ⟨some type, children, i, hi⟩ (inTurn type children i) := by
  have hone : (children.drop i).take 1 = [children[i]] := by
    rw [List.drop_eq_getElem_cons hi]
    rfl
  cases type with
  | modLoadBalance =>
      rw [inTurn, hone]
      exact .last rfl rfl
  | modSwitch =>
      rw [inTurn, hone]
      exact .last rfl rfl
  | modRedundantLoadBalance => exact turn_back hi (Nat.le_refl i) hi
  | modGroup => exact turn_forward (fun _ _ => rfl) _ hi
  | modIf => exact turn_forward (fun _ _ => rfl) _ hi
  | modElse => exact turn_forward (fun _ _ => rfl) _ hi
  | modElsif => exact turn_forward (fun _ _ => rfl) _ hi
  | modCase => exact turn_forward (fun _ _ => rfl) _ hi
  | modPolicy => exact turn_forward (fun _ _ => rfl) _ hi

end turn

-- ======== choosing

section choose

variable {ext : ModExternals σ} {mc : ModHead} {type : GroupType}
  {children : List Modcallable} {request request' : ModRequest σ} {i : Nat}

theorem pickLoop_lt (rest : List Modcallable) (count q : Nat)
    (request : ModRequest σ) (hq : q < i + rest.length) :
    (pickLoop ext rest i count q request).1 < i + rest.length := by
  induction rest generalizing i count q request with
  | nil => exact hq
  | cons p rest ih =>
      rw [List.length_cons] at hq ⊢
      rw [pickLoop, show i + (rest.length + 1) = i + 1 + rest.length by omega]
      refine ih _ _ _ ?_
      split
      · omega
      · omega

theorem switchLoop_lt {buffer : List UInt8} {rest : List Modcallable}
    {nullCase : Option Nat} (hnull : ∀ j ∈ nullCase, j < i + rest.length)
    {j : Nat} (h : switchLoop buffer rest i nullCase = some j) :
    j < i + rest.length := by
  induction rest generalizing i nullCase with
  | nil => exact hnull j h
  | cons p rest ih =>
      rw [List.length_cons,
        show i + (rest.length + 1) = i + 1 + rest.length by omega] at hnull ⊢
      rw [switchLoop] at h
      split at h
      · refine ih ?_ h
        intro n hn
        cases nullCase with
        | none =>
            cases hn
            omega
        | some m => exact hnull n hn
      · split at h
        · cases h
          omega
        · exact ih hnull h

/-- The child that is chosen is one of the group. -/
theorem chooseChild_lt
    (h : chooseChild ext mc type children request = some (some i, request')) :
    i < children.length := by
  have hpick (h : some (pickChild ext children request)
      = some (some i, request')) : i < children.length := by
    cases children with
    | nil => cases h
    | cons p rest =>
        cases h
        rw [List.length_cons, Nat.add_comm]
        exact pickLoop_lt rest 1 0 request (by omega)
  have hfirst (h : some (if children = [] then none else some 0, request)
      = some (some i, request')) : i < children.length := by
    split at h
    · cases h
    · next hne =>
        cases h
        exact List.length_pos_iff.mpr hne
  unfold chooseChild at h
  cases type with
  | modLoadBalance => exact hpick h
  | modRedundantLoadBalance => exact hpick h
  | modSwitch =>
      dsimp only at h
      split at h
      · cases h
      · next name hname =>
          have hlt := @switchLoop_lt 0 (switchValue ext name request).1
            children none (fun j hj => absurd hj (by simp)) i
            (congrArg Prod.fst (Option.some.inj h))
          rw [Nat.zero_add] at hlt
          exact hlt
  | modGroup => exact hfirst h
  | modIf => exact hfirst h
  | modElse => exact hfirst h
  | modElsif => exact hfirst h
  | modCase => exact hfirst h
  | modPolicy => exact hfirst h

end choose

-- ======== the machine

section machine

variable {ext : ModExternals σ} {component : RlmComponent}
  {below : List ModFrame} {top : ModFrame} {child : Cursor}
  {ctl : ModControl σ} {type : GroupType}

/-- The return from a group in the machine. -/
def LeavesTo (ext : ModExternals σ) (component : RlmComponent)
    (x : ModNext σ) (below : List ModFrame) :
    Except (ModEnd σ) (ModControl σ) → Prop
  | .error e => RoundsTo ext component x (.ended e)
  | .ok ctl => ∃ ctl' top parent,
      ctl = leftGroup parent top.result ctl'
        ∧ RoundsTo ext component x (doReturn below ctl' top parent)

/-- A group that is entered: its children are run, and it is left as the
interpreter leaves it. -/
theorem enterGroup_leavesTo {interp : Modcallable → ModControl σ → Int →
      RlmModule → Except (ModEnd σ) (ModFlow σ)}
    {mc : ModHead} {children : List Modcallable}
    (hroom : below.length + 1 < modcallStackMax)
    (hnode : ∀ ctl top' child', top'.children = some child' →
      child'.parent = some type →
      FlowsTo ext component (.loop ctl top' (top :: below)) (top :: below)
        top' child' (interp child'.node ctl top'.priority top'.result)) :
    LeavesTo ext component
      (enterGroup ext component mc type children ctl top below child)
      (top :: below)
      (interpGroup ext interp component child.parent mc type children
        ctl) := by
  unfold enterGroup interpGroup
  rw [if_neg (not_le.mpr hroom)]
  rcases hchoose : chooseChild ext mc type children ctl.request with
    - | ⟨- | i, request⟩
  · exact RoundsTo.refl _
  · exact ⟨_, { priority := 0, result := defaultComponentResults component
                children := none, start := none }, child.parent, rfl,
      RoundsTo.refl _⟩
  · have hi := chooseChild_lt hchoose
    have hlist := interpList_leaves hnode (turn_inTurn type hi)
      { ctl with request := request }
      { priority := 0, result := defaultComponentResults component
        children := some ⟨some type, children, i, hi⟩
        start := some ⟨some type, children, i, hi⟩ } rfl rfl
    simp only [Option.bind_some, at?_of_lt (some type) hi]
    cases hrun : interpList interp (inTurn type children i)
        { ctl with request := request } 0
        (defaultComponentResults component) with
    | error e =>
        rw [hrun] at hlist
        exact hlist
    | ok left =>
        obtain ⟨ctl', result⟩ := left
        rw [hrun] at hlist
        obtain ⟨last, rfl, hleads⟩ := hlist
        exact ⟨ctl', last, some type, rfl, hleads⟩

/-- With room for `depth` levels, the machine follows the interpreter from
a child on. -/
def FlowsAt (ext : ModExternals σ) (component : RlmComponent)
    (depth : Nat) : Prop :=
  ∀ (ctl : ModControl σ) (top : ModFrame) (below : List ModFrame)
    (child : Cursor), below.length + 1 + depth = modcallStackMax →
    top.children = some child → (child.parent = none ↔ below = []) →
    FlowsTo ext component (.loop ctl top below) below top child
      (interpNode ext component depth child.parent child.node ctl
        top.priority top.result)

/-- A group that is left settles the result of its own group, or ends the
run where `modcall` was called with it. -/
theorem leavesTo_flowsTo {x : ModNext σ}
    {left : Except (ModEnd σ) (ModControl σ)}
    (h : LeavesTo ext component x (top :: below) left)
    (htop : top.children = some child)
    (hparent : child.parent = none ↔ below = []) :
    FlowsTo ext component x below top child (left >>= fun ctl =>
      afterGroup child.parent child.node ctl top.priority top.result) := by
  cases left with
  | error e => exact h
  | ok ctl =>
      obtain ⟨ctl', last, parent, rfl, hleads⟩ := h
      cases below with
      | nil =>
          rw [hparent.mpr rfl]
          exact hleads
      | cons frame below =>
          obtain ⟨type, htype⟩ := Option.ne_none_iff_exists'.mp
            (mt hparent.mp (List.cons_ne_nil _ _))
          rw [doReturn, htop] at hleads
          refine FlowsTo.head hleads ?_
          rw [htype]
          exact unroll_flowsTo _ top (frame :: below) child

theorem interpNode_step (depth : Nat)
    (ih : ∀ d, depth = d + 1 → FlowsAt ext component d) :
    FlowsAt ext component depth := by
  intro ctl top below child hdepth htop hparent
  refine FlowsTo.head (roundsTo_step ctl top below) ?_
  have hleaf := @unroll_flowsTo σ ext component
    (callChild ext component child.node ctl) top below child
  unfold modStep interpNode
  by_cases hstop : ctl.request.stopProcessing = true
  · rw [if_pos hstop, if_pos hstop]
    exact RoundsTo.refl _
  · rw [if_neg hstop, if_neg hstop, htop]
    dsimp only
    cases hnode : child.node with
    | group mc type children =>
        dsimp only
        obtain ⟨ctl', hctl⟩ : ∃ c, c = (if type = .modElse ∨ type = .modElsif
            then { ctl with myresult := top.result } else ctl) := ⟨_, rfl⟩
        rw [← hctl]
        split
        · have hskip := @unroll_flowsTo σ ext component ctl' top below child
          rw [hnode] at hskip
          exact hskip
        · rcases hcond : conditionHolds ext mc type ctl' with
            ⟨- | -, ctl''⟩
          · exact RoundsTo.refl _
          · dsimp only
            cases depth with
            | zero =>
                rw [enterGroup, if_pos (by omega)]
                exact RoundsTo.refl _
            | succ d =>
                have hroom : below.length + 1 < modcallStackMax := by omega
                have hinner : ∀ c t ch, t.children = some ch →
                    ch.parent = some type →
                    FlowsTo ext component (.loop c t (top :: below))
                      (top :: below) t ch
                      (interpNode ext component d (some type) ch.node c
                        t.priority t.result) := by
                  intro c t ch ht hp
                  have h := ih d rfl c t (top :: below) ch
                    (by rw [List.length_cons]; omega) ht (by rw [hp]; simp)
                  rw [hp] at h
                  exact h
                have hflow := leavesTo_flowsTo
                  (@enterGroup_leavesTo σ ext component below top child ctl''
                    type _ mc children hroom hinner) htop hparent
                rw [hnode] at hflow
                exact hflow
    | single mc modinst =>
        rw [hnode] at hleaf
        exact hleaf
    | update mc vps =>
        rw [hnode] at hleaf
        exact hleaf
    | reference mc refName =>
        rw [hnode] at hleaf
        exact hleaf
    | xlat mc exec xlatName =>
        rw [hnode] at hleaf
        exact hleaf

theorem flowsAt (depth : Nat) : FlowsAt ext component depth := by
  induction depth with
  | zero => exact interpNode_step 0 fun d hd => absurd hd (by omega)
  | succ depth ih =>
      refine interpNode_step (depth + 1) fun d hd => ?_
      rw [← Nat.succ.inj hd]
      exact ih

end machine

/-- The loop of `modcall` comes to what the interpreter does. -/
theorem modcall_roundsTo (component : RlmComponent) (c : Option Modcallable)
    (request : ModRequest σ) :
    RoundsTo ext component (.loop
      { request := request, myresult := defaultComponentResults component
        wasIf := false, ifTaken := false }
      { priority := 0, result := defaultComponentResults component
        children := c.bind fun c => Cursor.at? none [c] 0, start := none } [])
      (.ended (interp ext component c request)) := by
  cases c with
  | none =>
      refine (roundsTo_step _ _ []).trans ?_
      unfold modStep interp
      dsimp only
      split
      · exact RoundsTo.refl _
      · exact RoundsTo.refl _
  | some c =>
      have hrun := @flowsAt σ ext component (modcallStackMax - 1)
        { request := request, myresult := defaultComponentResults component
          wasIf := false, ifTaken := false }
        { priority := 0, result := defaultComponentResults component
          children := some ⟨none, [c], 0, Nat.one_pos⟩, start := none } []
        ⟨none, [c], 0, Nat.one_pos⟩ rfl rfl (iff_of_true rfl rfl)
      unfold interp
      dsimp only at hrun ⊢
      rw [show Cursor.node ⟨none, [c], 0, Nat.one_pos⟩ = c from rfl] at hrun
      cases hflow : interpNode ext component (modcallStackMax - 1) none c
          { request := request, myresult := defaultComponentResults component
            wasIf := false, ifTaken := false } 0
          (defaultComponentResults component) with
      | error e =>
          rw [hflow] at hrun
          exact hrun
      | ok flow =>
          rw [hflow] at hrun
          cases flow with
          | next ctl priority result => exact hrun
          | leave ctl result => exact hrun

/-- The machine ends, with what the recursive interpreter comes to: the
same return code, and the same request, on which every call has left what
it did. -/
theorem modcall_eq_interp (component : RlmComponent)
    (c : Option Modcallable) (request : ModRequest σ) :
    ∃ n, ∀ fuel, n ≤ fuel →
      modcall ext component c request fuel
        = some (interp ext component c request) := by
  obtain ⟨n, hn⟩ := modcall_roundsTo ext component c request
  refine ⟨n, fun fuel hfuel => ?_⟩
  obtain ⟨k, rfl⟩ := Nat.exists_eq_add_of_le hfuel
  refine (hn k).trans ?_
  cases k with
  | zero => rfl
  | succ k => rfl

end WinRadius
