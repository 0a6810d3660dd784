/-
An `else` belongs to the `if` in front of it.

The machine keeps the outcome of the last `if` in two variables of the
whole run. `scopedNode` has no such variables: whether an `else` or
`elsif` is run is passed along the children of one group, and nothing of
it is seen inside or outside of them. Where every `else` and `elsif`
directly follows an `if` or `elsif`, and none stands in a group of which
one child is picked (`Chained`), both come to the same
(`modcall_scoped`). The compiler does not check that; an `else` behind a
module is run where some earlier `if` was false.
-/
import WinRadius.Proofs.ModcallResult

namespace WinRadius

open Lib

variable {σ : Type}

-- ======== chains

/-- `else` or `elsif`. -/
def Modcallable.isElse : Modcallable → Bool
  | .group _ type _ => type = .modElse ∨ type = .modElsif
  | _ => false

/-- `if` or `elsif`. -/
def Modcallable.opensElse : Modcallable → Bool
  | .group _ type _ => type = .modIf ∨ type = .modElsif
  | _ => false

/-- Every `else` and `elsif` directly follows an `if` or `elsif`; `prev`
says whether one is in front of the list. -/
def ElseFollows : Bool → List Modcallable → Prop
  | _, [] => True
  | prev, c :: cs => (c.isElse = true → prev = true)
      ∧ ElseFollows c.opensElse cs

/-- The types of which one child is picked. -/
def GroupType.Picks (type : GroupType) : Prop :=
  type = .modLoadBalance ∨ type = .modRedundantLoadBalance
    ∨ type = .modSwitch

instance (type : GroupType) : Decidable type.Picks :=
  inferInstanceAs (Decidable (_ ∨ _))

/-- A tree in which every `else` belongs to an `if`; a group of which one
child is picked has no `else`. -/
inductive Chained : Modcallable → Prop
  | single (mc : ModHead) (modinst : ModuleInstance) :
      Chained (.single mc modinst)
  | update (mc : ModHead) (vps : List ValuePair) : Chained (.update mc vps)
  | reference (mc : ModHead) (refName : Nat) :
      Chained (.reference mc refName)
  | xlat (mc : ModHead) (exec : Bool) (name : List UInt8) :
      Chained (.xlat mc exec name)
  | group {mc : ModHead} {type : GroupType} {children : List Modcallable}
      (hpick : type.Picks → ∀ c ∈ children, c.isElse = false)
      (hlist : ¬ type.Picks → ElseFollows false children)
      (h : ∀ c ∈ children, Chained c) :
      Chained (.group mc type children)

/-- Without an `else`, any order will do. -/
theorem elseFollows_of_none (prev : Bool) {l : List Modcallable}
    (h : ∀ c ∈ l, c.isElse = false) : ElseFollows prev l := by
  induction l generalizing prev with
  | nil => trivial
  | cons c l ih =>
      refine ⟨fun hc => ?_, ih _ fun d hd => h d (List.mem_cons_of_mem _ hd)⟩
      rw [h c List.mem_cons_self] at hc
      cases hc

-- ======== local scopes

variable (ext : ModExternals σ)

/-- The children of a group; `pending` says that the `if` in front, with
every `elsif` behind it, was false. -/
def scopedList (run : Bool → Modcallable → ModControl σ → Int →
    RlmModule → Except (ModEnd σ) (ModFlow σ × Bool)) :
    List Modcallable → Bool → ModControl σ → Int → RlmModule →
    Except (ModEnd σ) (ModControl σ × RlmModule)
  | [], _, ctl, _, result => return (ctl, result)
  | child :: rest, pending, ctl, priority, result => do
      match ← run pending child ctl priority result with
      | (.next ctl priority result, pending) =>
          scopedList run rest pending ctl priority result
      | (.leave ctl result, _) => return (ctl, result)

def scopedGroup (run : Bool → Modcallable → ModControl σ → Int →
    RlmModule → Except (ModEnd σ) (ModFlow σ × Bool))
    (component : RlmComponent) (mc : ModHead) (type : GroupType)
    (children : List Modcallable) (ctl : ModControl σ) :
    Except (ModEnd σ) (ModControl σ) :=
  match chooseChild ext mc type children ctl.request with
  | none => throw (.exited ctl.request)
  | some (none, request) =>
      return { ctl with
        request := request, myresult := defaultComponentResults component }
  | some (some i, request) => do
      let (ctl, result) ← scopedList run (inTurn type children i) false
        { ctl with request := request } 0 (defaultComponentResults component)
      return { ctl with myresult := result }

/-- A child, with what its siblings have left for an `else`, and what it
leaves. -/
def scopedNode (component : RlmComponent) (depth : Nat)
    (parent : Option GroupType) (pending : Bool) (child : Modcallable)
    (ctl : ModControl σ) (priority : Int) (result : RlmModule) :
    Except (ModEnd σ) (ModFlow σ × Bool) :=
  if ctl.request.stopProcessing then throw (.returned .fail ctl.request)
  else
    match child with
    | .group mc type children =>
        let ctl := if type = .modElse ∨ type = .modElsif then
          { ctl with myresult := result } else ctl
        if (type = .modElse ∨ type = .modElsif) ∧ !pending then
          return (settleResult child ctl priority result, false)
        else
          match conditionHolds ext mc type ctl with
          | (false, ctl) => return (.next ctl priority ctl.myresult, true)
          | (true, ctl) =>
              match depth with
              | 0 => throw (.exited ctl.request)
              | depth + 1 => do
                  let ctl ← scopedGroup ext
                    (scopedNode component depth (some type)) component mc
                    type children ctl
                  let flow ← afterGroup parent child ctl priority result
                  return (flow, false)
    | leaf =>
        let ctl := callChild ext component leaf ctl
        return (settleResult child ctl priority result, false)

/-- `modcall`, with an `else` in the scope of its group. -/
def scopedInterp (component : RlmComponent) (c : Option Modcallable)
    (request : ModRequest σ) : ModEnd σ :=
  let result := defaultComponentResults component
  match c with
  | none =>
      .returned (if request.stopProcessing then .fail else result) request
  | some c =>
      match scopedNode ext component (modcallStackMax - 1) none false c
        { request := request, myresult := result
          wasIf := false, ifTaken := false } 0 result with
      | .error e => e
      | .ok (.next ctl _ result, _) => .returned result ctl.request
      | .ok (.leave ctl _, _) => .exited ctl.request

-- ======== the flags

/-- A state without the flags. -/
def ModControl.bare (ctl : ModControl σ) : ModControl σ :=
  { ctl with wasIf := false, ifTaken := false }

/-- What the flags say to an `else`. -/
def ModControl.pending (ctl : ModControl σ) : Bool :=
  ctl.wasIf && !ctl.ifTaken

def ModFlow.bare : ModFlow σ → ModFlow σ
  | next ctl priority result => .next ctl.bare priority result
  | leave ctl result => .leave ctl.bare result

def ModFlow.ctl : ModFlow σ → ModControl σ
  | next ctl _ _ => ctl
  | leave ctl _ => ctl

section flags

variable {ext : ModExternals σ} {component : RlmComponent}
  {child : Modcallable} {ctl : ModControl σ} {priority : Int}
  {result : RlmModule}

theorem settleResult_bare (child : Modcallable) (ctl : ModControl σ)
    (priority : Int) (result : RlmModule) :
    settleResult child ctl.bare priority result
      = (settleResult child ctl priority result).bare := by
  unfold settleResult
  dsimp only [ModControl.bare]
  split
  · rfl
  · split
    · rfl
    · split
      · rfl
      · rfl

theorem callChild_bare (component : RlmComponent) (child : Modcallable)
    (ctl : ModControl σ) :
    callChild ext component child ctl.bare
      = (callChild ext component child ctl).bare := by
  unfold callChild handleResult ModControl.bare
  by_cases hsess : component ≠ .sess
  · simp only [if_pos hsess]
    cases child with
    | reference mc refName =>
        dsimp only
        split
        · rfl
        · rfl
    | group mc type children => rfl
    | update mc vps => rfl
    | xlat mc exec name => rfl
    | single mc modinst => rfl
  · simp only [if_neg hsess]
    cases child with
    | reference mc refName =>
        dsimp only
        split
        · rfl
        · rfl
    | group mc type children => rfl
    | update mc vps => rfl
    | xlat mc exec name => rfl
    | single mc modinst => rfl

theorem conditionHolds_bare (mc : ModHead) (type : GroupType)
    (ctl : ModControl σ) :
    conditionHolds ext mc type ctl.bare
      = ((conditionHolds ext mc type ctl).1,
        (conditionHolds ext mc type ctl).2.bare) := by
  unfold conditionHolds
  split
  · rfl
  · rfl

/-- What the interpreter with flags comes to is, without them, what the
one with scopes does, and the flags say what it passes on. -/
def Agree (child : Modcallable) : Except (ModEnd σ) (ModFlow σ) →
    Except (ModEnd σ) (ModFlow σ × Bool) → Prop
  | .error e, left => left = .error e
  | .ok flow, left => ∃ pending, left = .ok (flow.bare, pending)
      ∧ (child.opensElse = true → flow.ctl.pending = pending)

theorem scopedList_agrees {l : List Modcallable} {prev pending : Bool}
    {interp : Modcallable → ModControl σ → Int → RlmModule →
      Except (ModEnd σ) (ModFlow σ)}
    {run : Bool → Modcallable → ModControl σ → Int → RlmModule →
      Except (ModEnd σ) (ModFlow σ × Bool)}
    (hnode : ∀ c ∈ l, ∀ pending ctl priority result,
      (c.isElse = true → ctl.pending = pending) →
      Agree c (interp c ctl priority result)
        (run pending c ctl.bare priority result))
    (hfollows : ElseFollows prev l)
    (hprev : prev = true → ctl.pending = pending) :
    scopedList run l pending ctl.bare priority result
      = (interpList interp l ctl priority result).map
        fun left => (left.1.bare, left.2) := by
  induction l generalizing prev pending ctl priority result with
  | nil => rfl
  | cons c l ih =>
      obtain ⟨helse, hrest⟩ := hfollows
      have hone := hnode c List.mem_cons_self pending ctl priority result
        fun hc => hprev (helse hc)
      rw [scopedList, interpList]
      cases hflow : interp c ctl priority result with
      | error e =>
          rw [hflow] at hone
          rw [show run pending c ctl.bare priority result = .error e
            from hone]
          rfl
      | ok flow =>
          rw [hflow] at hone
          obtain ⟨pending', hrun, hpending⟩ := hone
          rw [hrun]
          cases flow with
          | next ctl' action r =>
              exact ih (fun d hd => hnode d (List.mem_cons_of_mem _ hd))
                hrest hpending
          | leave ctl' r => rfl

theorem chosen_follows {mc : ModHead} {type : GroupType}
    {children : List Modcallable} {request request' : ModRequest σ} {i : Nat}
    (hpick : type.Picks → ∀ c ∈ children, c.isElse = false)
    (hlist : ¬ type.Picks → ElseFollows false children)
    (hchoose : chooseChild ext mc type children request
      = some (some i, request')) :
    ElseFollows false (inTurn type children i) := by
  by_cases hp : type.Picks
  · exact elseFollows_of_none false fun c hc =>
      hpick hp c (inTurn_subset type children i hc)
  · have hfirst (h : some (if children = [] then none else some 0, request)
        = some (some i, request')) : ElseFollows false (children.drop i) := by
      split at h
      · cases h
      · cases h
        exact hlist hp
    unfold GroupType.Picks at hp
    unfold chooseChild at hchoose
    cases type with
    | modLoadBalance => exact absurd (.inl rfl) hp
    | modRedundantLoadBalance => exact absurd (.inr (.inl rfl)) hp
    | modSwitch => exact absurd (.inr (.inr rfl)) hp
    | modGroup => exact hfirst hchoose
    | modIf => exact hfirst hchoose
    | modElse => exact hfirst hchoose
    | modElsif => exact hfirst hchoose
    | modCase => exact hfirst hchoose
    | modPolicy => exact hfirst hchoose

theorem scopedGroup_agrees {mc : ModHead} {type : GroupType}
    {children : List Modcallable} {parent : Option GroupType}
    {interp : Modcallable → ModControl σ → Int → RlmModule →
      Except (ModEnd σ) (ModFlow σ)}
    {run : Bool → Modcallable → ModControl σ → Int → RlmModule →
      Except (ModEnd σ) (ModFlow σ × Bool)}
    (hpick : type.Picks → ∀ c ∈ children, c.isElse = false)
    (hlist : ¬ type.Picks → ElseFollows false children)
    (hnode : ∀ c ∈ children, ∀ pending ctl priority result,
      (c.isElse = true → ctl.pending = pending) →
      Agree c (interp c ctl priority result)
        (run pending c ctl.bare priority result)) :
    scopedGroup ext run component mc type children ctl.bare
      = (interpGroup ext interp component parent mc type children ctl).map
        ModControl.bare := by
  unfold scopedGroup interpGroup
  dsimp only [ModControl.bare]
  rcases hchoose : chooseChild ext mc type children ctl.request with
    - | ⟨- | i, request⟩
  · rfl
  · rfl
  · have hrun := @scopedList_agrees σ { ctl with request := request } 0
      (defaultComponentResults component) _ _ false interp run
      (fun c hc => hnode c (inTurn_subset type children i hc))
      (chosen_follows hpick hlist hchoose)
      (fun h => absurd h Bool.false_ne_true)
    dsimp only [ModControl.bare] at hrun ⊢
    rw [hrun]
    cases interpList interp (inTurn type children i)
        { ctl with request := request } 0
        (defaultComponentResults component) with
    | error e => rfl
    | ok left => rfl

/-- What follows a group that is left, with and without the flags. -/
theorem afterGroup_bare (parent : Option GroupType) (child : Modcallable)
    (ctl : ModControl σ) (priority : Int) (result : RlmModule) :
    afterGroup parent child ctl.bare priority result
      = (afterGroup parent child ctl priority result).map ModFlow.bare := by
  cases parent with
  | none => rfl
  | some type =>
      unfold afterGroup
      dsimp only
      rw [settleResult_bare]
      rfl

/-- Behind a group that is left, an `else` is skipped. -/
theorem interpGroup_pending {mc : ModHead} {type : GroupType}
    {children : List Modcallable} {parent : Option GroupType}
    {interp : Modcallable → ModControl σ → Int → RlmModule →
      Except (ModEnd σ) (ModFlow σ)} {ctl' : ModControl σ}
    (h : interpGroup ext interp component parent mc type children ctl
      = .ok ctl') : ctl'.pending = false := by
  have hleft (p : Option GroupType) (r : RlmModule) (c : ModControl σ) :
      (leftGroup p r c).pending = false := Bool.and_not_self _
  unfold interpGroup at h
  rcases hchoose : chooseChild ext mc type children ctl.request with
    - | ⟨- | i, request⟩
  · rw [hchoose] at h
    cases h
  · rw [hchoose] at h
    cases h
    exact hleft _ _ _
  · rw [hchoose] at h
    dsimp only at h
    cases hlist : interpList interp (inTurn type children i)
        { ctl with request := request } 0
        (defaultComponentResults component) with
    | error e =>
        rw [hlist] at h
        cases h
    | ok left =>
        rw [hlist] at h
        cases h
        exact hleft _ _ _

theorem settleResult_ctl (child : Modcallable) (ctl : ModControl σ)
    (priority : Int) (result : RlmModule) :
    (settleResult child ctl priority result).ctl = ctl := by
  unfold settleResult
  dsimp only
  split
  · rfl
  · split
    · rfl
    · split
      · rfl
      · rfl

/-- A leaf agrees: no `else` can be behind it. -/
theorem leaf_agrees (hleaf : child.opensElse = false) (pending : Bool)
    (ctl : ModControl σ) (priority : Int) (result : RlmModule) :
    Agree child
      (.ok (settleResult child (callChild ext component child ctl) priority result))
      (.ok (settleResult child (callChild ext component child ctl.bare) priority
        result, pending)) := by
  refine ⟨pending, ?_, fun h => ?_⟩
  · rw [callChild_bare, settleResult_bare]
  · rw [hleaf] at h
    cases h

/-- With the same outcome for an `else`, the same one is skipped. -/
theorem skips_iff (type : GroupType) (ctl : ModControl σ) :
    skips type ctl = true
      ↔ (type = .modElse ∨ type = .modElsif) ∧ ctl.pending = false := by
  unfold skips ModControl.pending
  rw [decide_eq_true_iff]
  refine and_congr_right fun _ => ?_
  cases ctl.wasIf with
  | false => simp
  | true => simp

theorem afterGroup_agrees {parent : Option GroupType}
    {ctl' : ModControl σ} (hpending : ctl'.pending = false) :
    Agree child (afterGroup parent child ctl' priority result)
      (afterGroup parent child ctl'.bare priority result
        >>= fun flow => .ok (flow, false)) := by
  rw [afterGroup_bare]
  cases parent with
  | none => rfl
  | some type =>
      refine ⟨false, rfl, fun _ => ?_⟩
      rw [settleResult_ctl]
      exact hpending

/-- The interpreters agree on children, with room for `depth` levels. -/
def AgreeAt (ext : ModExternals σ) (component : RlmComponent)
    (depth : Nat) : Prop :=
  ∀ (parent : Option GroupType) (pending : Bool) (child : Modcallable)
    (ctl : ModControl σ) (priority : Int) (result : RlmModule),
    Chained child → (child.isElse = true → ctl.pending = pending) →
    Agree child
      (interpNode ext component depth parent child ctl priority result)
      (scopedNode ext component depth parent pending child ctl.bare priority
        result)

/-- A group that is not skipped agrees. -/
theorem entered_agrees {depth : Nat} {parent : Option GroupType}
    {mc : ModHead} {type : GroupType} {children : List Modcallable}
    (ih : AgreeAt ext component depth)
    (hc : Chained (.group mc type children)) :
    Agree (.group mc type children)
      (interpGroup ext (interpNode ext component depth (some type)) component
          parent mc type children ctl
        >>= fun ctl => afterGroup parent (.group mc type children) ctl
          priority result)
      (scopedGroup ext (scopedNode ext component depth (some type)) component
          mc type children ctl.bare
        >>= fun ctl => afterGroup parent (.group mc type children) ctl
            priority result
          >>= fun flow => .ok (flow, false)) := by
  cases hc with
  | group hpick hlist hall =>
      rw [@scopedGroup_agrees σ ext component ctl mc type children parent
        (interpNode ext component depth (some type)) _ hpick hlist
        fun c hin pending ctl priority result =>
          ih (some type) pending c ctl priority result (hall c hin)]
      cases hgroup : interpGroup ext
          (interpNode ext component depth (some type)) component parent mc
          type children ctl with
      | error e => rfl
      | ok ctl' => exact afterGroup_agrees (interpGroup_pending hgroup)

theorem agree_step (depth : Nat)
    (ih : ∀ d, depth = d + 1 → AgreeAt ext component d) :
    AgreeAt ext component depth := by
  intro parent pending child ctl priority result hc hpending
  unfold interpNode scopedNode
  by_cases hstop : ctl.request.stopProcessing = true
  · rw [if_pos hstop, if_pos (by exact hstop)]
    rfl
  · rw [if_neg hstop, if_neg (by exact hstop)]
    cases child with
    | single mc modinst => exact leaf_agrees rfl false ctl priority result
    | update mc vps => exact leaf_agrees rfl false ctl priority result
    | reference mc refName => exact leaf_agrees rfl false ctl priority result
    | xlat mc exec name => exact leaf_agrees rfl false ctl priority result
    | group mc type children =>
        dsimp only
        obtain ⟨one, hone⟩ : ∃ c, c = (if type = .modElse ∨ type = .modElsif
            then { ctl with myresult := result } else ctl) := ⟨_, rfl⟩
        have hbare : (if type = .modElse ∨ type = .modElsif
            then { ctl.bare with myresult := result } else ctl.bare)
              = one.bare := by
          rw [hone]
          split
          · rfl
          · rfl
        have hsame : one.pending = ctl.pending := by
          rw [hone]
          split
          · rfl
          · rfl
        rw [← hone, hbare]
        have hskip : (type = .modElse ∨ type = .modElsif) ∧ (!pending) = true
            ↔ skips type one = true := by
          rw [skips_iff, hsame]
          refine and_congr_right fun htype => ?_
          rw [hpending (decide_eq_true htype)]
          simp
        by_cases hs : skips type one = true
        · rw [if_pos hs, if_pos (hskip.mpr hs)]
          refine ⟨false, ?_, fun _ => ?_⟩
          · rw [settleResult_bare]
            rfl
          · rw [settleResult_ctl]
            exact ((skips_iff type one).mp hs).2
        · rw [if_neg hs, if_neg (mt hskip.mp hs), conditionHolds_bare]
          rcases hcond : conditionHolds ext mc type one with ⟨- | -, two⟩
          · exact ⟨true, rfl, fun _ => rfl⟩
          · dsimp only
            cases depth with
            | zero => rfl
            | succ d => exact entered_agrees (ih d rfl) hc

theorem agreeAt (depth : Nat) : AgreeAt ext component depth := by
  induction depth with
  | zero => exact agree_step 0 fun d hd => absurd hd (by omega)
  | succ depth ih =>
      refine agree_step (depth + 1) fun d hd => ?_
      rw [← Nat.succ.inj hd]
      exact ih

end flags

/-- `modcall` keeps every `else` in the scope of its group: its two
variables for the whole run come to what the interpreter with scopes
does. -/
theorem modcall_scoped {ext : ModExternals σ} (component : RlmComponent)
    {c : Modcallable} (request : ModRequest σ) (hc : Chained c) :
    ∃ n, ∀ fuel, n ≤ fuel →
      modcall ext component (some c) request fuel
        = some (scopedInterp ext component (some c) request) := by
  obtain ⟨n, hn⟩ := modcall_eq_interp ext component (some c) request
  refine ⟨n, fun fuel hfuel => (hn fuel hfuel).trans (congrArg some ?_)⟩
  have hagree := @agreeAt σ ext component (modcallStackMax - 1) none false c
    { request := request, myresult := defaultComponentResults component
      wasIf := false, ifTaken := false } 0
    (defaultComponentResults component) hc (fun _ => rfl)
  unfold interp scopedInterp
  dsimp only [ModControl.bare] at hagree ⊢
  cases hflow : interpNode ext component (modcallStackMax - 1) none c
      { request := request, myresult := defaultComponentResults component
        wasIf := false, ifTaken := false } 0
      (defaultComponentResults component) with
  | error e =>
      rw [hflow] at hagree
      rw [show scopedNode ext component (modcallStackMax - 1) none false c _
        _ _ = .error e from hagree]
  | ok flow =>
      rw [hflow] at hagree
      obtain ⟨pending, hscoped, -⟩ := hagree
      rw [hscoped]
      cases flow with
      | next ctl action r => rfl
      | leave ctl r => rfl

/-- An `if` that is false, with its `else`. -/
def ifElse : Modcallable :=
  .group pairHead .modGroup
    [.group { pairHead with name := some [48] } .modIf
      (redundantPair.take 1),
     .group pairHead .modElse (redundantPair.drop 1)]

/-- The `else` is run, and the `if` is not. -/
theorem modcall_scoped_ifElse :
    ∃ n, ∀ fuel, n ≤ fuel →
      modcall { loggedModules with
          evaluateCondition := fun request _ _ => (some false, request) }
        .autz (some ifElse) { rest := [] } fuel
        = some (.returned .ok { rest := [[2]], simulMax := 2 }) := by
  have hleaf : ∀ c ∈ redundantPair, Chained c := by
    intro c hc
    rcases List.mem_pair.mp hc with rfl | rfl
    · exact .single _ _
    · exact .single _ _
  have hpick {type : GroupType} (h : ¬ type.Picks) {l : List Modcallable} :
      type.Picks → ∀ c ∈ l, c.isElse = false := fun hp => absurd hp h
  have hfollows (l : List Modcallable) (hl : l ⊆ redundantPair) :
      ElseFollows false l := by
    refine elseFollows_of_none false fun c hc => ?_
    rcases List.mem_pair.mp (hl hc) with rfl | rfl
    · rfl
    · rfl
  have hchained : Chained ifElse := by
    refine .group (hpick (by decide)) (fun _ => ?_) fun c hc => ?_
    · exact ⟨fun h => absurd h (by decide), fun _ => rfl, trivial⟩
    · rcases List.mem_pair.mp hc with rfl | rfl
      · refine .group (hpick (by decide)) (fun _ => ?_) fun c hc => ?_
        · exact hfollows _ (List.take_subset 1 _)
        · exact hleaf c (List.take_subset 1 _ hc)
      · refine .group (hpick (by decide)) (fun _ => ?_) fun c hc => ?_
        · exact hfollows _ (List.drop_subset 1 _)
        · exact hleaf c (List.drop_subset 1 _ hc)
  exact modcall_scoped .autz { rest := [] } hchained

end WinRadius
