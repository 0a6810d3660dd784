/-
The result of a group is its greatest answer.

A child that is no `if`, `elsif` or `else` answers with a return code, and
its action says what that is worth to the group. The answers of a group
end with the first whose action is to return or to reject (`childAnswers`). The
result is that answer, or the latest of those with the greatest action
(`GroupResult`).

In a redundant group every answer but `fail` ends the group, so the result
is the first that is not `fail`; in a redundant-load-balance group the
children are tried from the one that is picked, none of them twice.
-/
import WinRadius.Lib.LatestMax
import WinRadius.Proofs.Modcall

namespace WinRadius

open Lib

variable {σ : Type}

-- ======== answers

/-- A return code, with the action it has for the child. -/
abbrev Answer := Int × RlmModule

/-- The action ends the group. -/
def EndsGroup (a : Answer) : Prop :=
  a.1 = modActionReturn ∨ a.1 = modActionReject

instance (a : Answer) : Decidable (EndsGroup a) :=
  inferInstanceAs (Decidable (_ ∨ _))

/-- The answer of a child. -/
def answerOfChild (child : Modcallable) (ctl : ModControl σ) : Answer :=
  (child.mc.actions ctl.myresult, ctl.myresult)

/-- The answers of children that are run in turn, up to the first that
ends the group. -/
def childAnswers (run : Modcallable → ModControl σ →
    Except (ModEnd σ) (ModControl σ)) : List Modcallable → ModControl σ →
    Except (ModEnd σ) (List Answer × ModControl σ)
  | [], ctl => return ([], ctl)
  | child :: rest, ctl => do
      let ctl ← run child ctl
      if EndsGroup (answerOfChild child ctl) then
        return ([answerOfChild child ctl], ctl)
      let (as, last) ← childAnswers run rest ctl
      return (answerOfChild child ctl :: as, last)

/-- What the answers make of the result of a group. -/
inductive GroupResult (first : RlmModule) : List Answer → RlmModule → Prop
  | returned (front : List Answer) (r : RlmModule)
      (hfront : ∀ a ∈ front, ¬ EndsGroup a) :
      GroupResult first (front ++ [(modActionReturn, r)]) r
  | rejected (front : List Answer) (r : RlmModule)
      (hfront : ∀ a ∈ front, ¬ EndsGroup a) :
      GroupResult first (front ++ [(modActionReject, r)]) .reject
  | greatest (front back : List Answer) (action : Int) (r : RlmModule)
      (hopen : ∀ a ∈ front ++ (action, r) :: back, ¬ EndsGroup a)
      (hpos : 0 ≤ action) (hfront : ∀ a ∈ front, a.1 ≤ action)
      (hback : ∀ a ∈ back, a.1 < action) :
      GroupResult first (front ++ (action, r) :: back) r
  | untouched {as : List Answer} (hopen : ∀ a ∈ as, ¬ EndsGroup a)
      (hneg : ∀ a ∈ as, a.1 < 0) : GroupResult first as first

section childAnswers

variable {run : Modcallable → ModControl σ →
    Except (ModEnd σ) (ModControl σ)}
  {interp : Modcallable → ModControl σ → Int → RlmModule →
    Except (ModEnd σ) (ModFlow σ)}
  {children : List Modcallable} {ctl ctl' : ModControl σ}
  {as : List Answer} {priority : Int} {result r : RlmModule}

theorem settleResult_open (child : Modcallable) (ctl : ModControl σ)
    (priority : Int) (result : RlmModule)
    (h : ¬ EndsGroup (answerOfChild child ctl)) :
    settleResult child ctl priority result
      = .next ctl (latest (priority, result) (answerOfChild child ctl)).1
        (latest (priority, result) (answerOfChild child ctl)).2 := by
  obtain ⟨hreturn, hreject⟩ := not_or.mp h
  by_cases hle : priority ≤ child.mc.actions ctl.myresult
  · have heq : latest (priority, result) (answerOfChild child ctl)
        = answerOfChild child ctl := latest_of_le hle
    rw [heq]
    exact (if_neg hreturn).trans ((if_neg hreject).trans (if_pos hle))
  · have heq : latest (priority, result) (answerOfChild child ctl)
        = (priority, result) := latest_of_lt (not_le.mp hle)
    rw [heq]
    exact (if_neg hreturn).trans ((if_neg hreject).trans (if_neg hle))

theorem interpList_next {child : Modcallable} {rest : List Modcallable}
    {action : Int} (h : interp child ctl priority result
      = .ok (.next ctl' action r)) :
    interpList interp (child :: rest) ctl priority result
      = interpList interp rest ctl' action r := by
  rw [interpList, h]
  rfl

theorem interpList_leave {child : Modcallable} {rest : List Modcallable}
    (h : interp child ctl priority result = .ok (.leave ctl' r)) :
    interpList interp (child :: rest) ctl priority result
      = .ok (ctl', r) := by
  rw [interpList, h]
  rfl

theorem childAnswers_ends {child : Modcallable} {rest : List Modcallable}
    (hrun : run child ctl = .ok ctl')
    (h : EndsGroup (answerOfChild child ctl')) :
    childAnswers run (child :: rest) ctl
      = .ok ([answerOfChild child ctl'], ctl') := by
  rw [childAnswers, hrun, ok_bind, if_pos h]
  rfl

theorem childAnswers_open {child : Modcallable} {rest : List Modcallable}
    {mid : ModControl σ} (hrun : run child ctl = .ok mid)
    (h : ¬ EndsGroup (answerOfChild child mid))
    (hrest : childAnswers run rest mid = .ok (as, ctl')) :
    childAnswers run (child :: rest) ctl
      = .ok (answerOfChild child mid :: as, ctl') := by
  rw [childAnswers, hrun, ok_bind, if_neg h, hrest]
  rfl

/-- Where every child settles the result by its answer, the group has the
result that the answers give it, on top of what it had. -/
theorem interpList_answers
    (hrun : ∀ c ∈ children, ∀ ctl priority result,
      interp c ctl priority result
        = run c ctl >>= fun ctl => .ok (settleResult c ctl priority result))
    (h : interpList interp children ctl priority result = .ok (ctl', r)) :
    ∃ as, childAnswers run children ctl = .ok (as, ctl')
      ∧ ((∃ front x, as = front ++ [(modActionReturn, x)] ∧ r = x
          ∧ ∀ a ∈ front, ¬ EndsGroup a)
        ∨ (∃ front x, as = front ++ [(modActionReject, x)] ∧ r = .reject
          ∧ ∀ a ∈ front, ¬ EndsGroup a)
        ∨ ((∀ a ∈ as, ¬ EndsGroup a)
          ∧ r = (as.foldl latest (priority, result)).2)) := by
  induction children generalizing ctl priority result with
  | nil =>
      cases h
      exact ⟨[], rfl, .inr (.inr ⟨fun a ha => absurd ha List.not_mem_nil,
        rfl⟩)⟩
  | cons child rest ih =>
      have hone := hrun child List.mem_cons_self ctl priority result
      cases hc : run child ctl with
      | error e =>
          rw [interpList, hone, hc] at h
          cases h
      | ok mid =>
          rw [hc, ok_bind] at hone
          have hnil : ∀ a ∈ ([] : List Answer), ¬ EndsGroup a :=
            fun a ha => absurd ha List.not_mem_nil
          by_cases hreturn : (answerOfChild child mid).1 = modActionReturn
          · have hsettle : settleResult child mid priority result
                = .leave mid mid.myresult := if_pos hreturn
            rw [hsettle] at hone
            rw [interpList_leave hone] at h
            cases h
            refine ⟨_, childAnswers_ends hc (.inl hreturn),
              .inl ⟨[], _, ?_, rfl, hnil⟩⟩
            rw [← hreturn]
            rfl
          by_cases hreject : (answerOfChild child mid).1 = modActionReject
          · have hsettle : settleResult child mid priority result
                = .leave mid .reject :=
              (if_neg hreturn).trans (if_pos hreject)
            rw [hsettle] at hone
            rw [interpList_leave hone] at h
            cases h
            refine ⟨_, childAnswers_ends hc (.inr hreject), .inr (.inl ⟨[],
              ctl'.myresult, ?_, rfl, hnil⟩)⟩
            rw [← hreject]
            rfl
          have hopen : ¬ EndsGroup (answerOfChild child mid) :=
            not_or.mpr ⟨hreturn, hreject⟩
          rw [settleResult_open child mid priority result hopen] at hone
          rw [interpList_next hone] at h
          obtain ⟨as, has, hresult⟩ := ih
            (fun c hin => hrun c (List.mem_cons_of_mem _ hin)) h
          have hcons {front : List Answer}
              (hfront : ∀ a ∈ front, ¬ EndsGroup a) :
              ∀ a ∈ answerOfChild child mid :: front, ¬ EndsGroup a := by
            intro a ha
            rcases List.mem_cons.mp ha with rfl | ha
            · exact hopen
            · exact hfront a ha
          refine ⟨_, childAnswers_open hc hopen has, ?_⟩
          rcases hresult with ⟨front, x, rfl, hr, hf⟩
            | ⟨front, x, rfl, hr, hf⟩ | ⟨hf, hr⟩
          · exact .inl ⟨_ :: front, x, rfl, hr, hcons hf⟩
          · exact .inr (.inl ⟨_ :: front, x, rfl, hr, hcons hf⟩)
          · exact .inr (.inr ⟨hcons hf, hr⟩)

/-- Where they do, an error of the group is one of a child that is run. -/
theorem childAnswers_error {e : ModEnd σ}
    (hrun : ∀ c ∈ children, ∀ ctl priority result,
      interp c ctl priority result
        = run c ctl >>= fun ctl => .ok (settleResult c ctl priority result))
    (h : interpList interp children ctl priority result = .error e) :
    childAnswers run children ctl = .error e := by
  induction children generalizing ctl priority result with
  | nil => cases h
  | cons child rest ih =>
      have hone := hrun child List.mem_cons_self ctl priority result
      cases hc : run child ctl with
      | error e' =>
          rw [interpList, hone, hc] at h
          cases h
          rw [childAnswers, hc]
          rfl
      | ok mid =>
          rw [hc, ok_bind] at hone
          -- an answer that ends the group leaves without an error
          by_cases hreturn : (answerOfChild child mid).1 = modActionReturn
          · have hsettle : settleResult child mid priority result
                = .leave mid mid.myresult := if_pos hreturn
            rw [interpList_leave (hone.trans (congrArg _ hsettle))] at h
            cases h
          by_cases hreject : (answerOfChild child mid).1 = modActionReject
          · have hsettle : settleResult child mid priority result
                = .leave mid .reject :=
              (if_neg hreturn).trans (if_pos hreject)
            rw [interpList_leave (hone.trans (congrArg _ hsettle))] at h
            cases h
          have hopen : ¬ EndsGroup (answerOfChild child mid) :=
            not_or.mpr ⟨hreturn, hreject⟩
          rw [settleResult_open child mid priority result hopen] at hone
          rw [interpList_next hone] at h
          rw [childAnswers, hc, ok_bind, if_neg hopen,
            ih (fun c hin => hrun c (List.mem_cons_of_mem _ hin)) h]
          rfl

/-- The result of a group that starts with no priority. -/
theorem interpList_result {first : RlmModule}
    (hrun : ∀ c ∈ children, ∀ ctl priority result,
      interp c ctl priority result
        = run c ctl >>= fun ctl => .ok (settleResult c ctl priority result))
    (h : interpList interp children ctl 0 first = .ok (ctl', r)) :
    ∃ as, childAnswers run children ctl = .ok (as, ctl')
      ∧ GroupResult first as r := by
  obtain ⟨as, has, hresult⟩ := interpList_answers hrun h
  refine ⟨as, has, ?_⟩
  rcases hresult with ⟨front, x, rfl, rfl, hf⟩ | ⟨front, x, rfl, rfl, hf⟩
    | ⟨hopen, rfl⟩
  · exact .returned front r hf
  · exact .rejected front x hf
  · rcases foldl_latest (0, first) as with ⟨heq, hneg⟩
      | ⟨front, back, hsplit, hpos, hfront, hback⟩
    · rw [heq]
      exact .untouched hopen hneg
    · rw [hsplit] at hopen
      have hgreatest : GroupResult first _ _ :=
        .greatest front back _ _ hopen hpos hfront hback
      rw [← hsplit] at hgreatest
      exact hgreatest

end childAnswers

-- ======== the errors

/-- `if`, `else` or `elsif`. -/
def GroupType.Conditional (type : GroupType) : Prop :=
  type = .modIf ∨ type = .modElse ∨ type = .modElsif

/-- The run was stopped: the module that took too long has failed. -/
def IsStopped (e : ModEnd σ) : Prop :=
  ∃ request, e = .returned .fail request ∧ request.stopProcessing = true

/-- A tree with a stack of `depth` levels for its groups, in which every
`switch` has something to switch over. A child that refers to a server is
excluded: the source calls `modcall` again for it, on a tree that this one
does not bound. -/
inductive FitsStack : Nat → Modcallable → Prop
  | single (depth : Nat) (mc : ModHead) (modinst : ModuleInstance) :
      FitsStack depth (.single mc modinst)
  | update (depth : Nat) (mc : ModHead) (vps : List ValuePair) :
      FitsStack depth (.update mc vps)
  | xlat (depth : Nat) (mc : ModHead) (exec : Bool) (name : List UInt8) :
      FitsStack depth (.xlat mc exec name)
  | group {depth : Nat} {mc : ModHead} {type : GroupType}
      {children : List Modcallable}
      (hname : type = .modSwitch → mc.name ≠ none)
      (h : ∀ c ∈ children, FitsStack depth c) :
      FitsStack (depth + 1) (.group mc type children)

section errors

variable {ext : ModExternals σ} {component : RlmComponent}
  {interp : Modcallable → ModControl σ → Int → RlmModule →
    Except (ModEnd σ) (ModFlow σ)}
  {children : List Modcallable} {ctl : ModControl σ} {priority : Int}
  {result : RlmModule} {e : ModEnd σ} {mc : ModHead} {type : GroupType}
  {parent : Option GroupType} {request : ModRequest σ}

theorem interpList_error
    (h : interpList interp children ctl priority result = .error e) :
    ∃ c ∈ children, ∃ ctl priority result,
      interp c ctl priority result = .error e := by
  induction children generalizing ctl priority result with
  | nil => cases h
  | cons child rest ih =>
      cases hone : interp child ctl priority result with
      | error e' =>
          rw [interpList, hone] at h
          cases h
          exact ⟨child, List.mem_cons_self, ctl, priority, result, hone⟩
      | ok flow =>
          cases flow with
          | next ctl' action r =>
              rw [interpList_next hone] at h
              obtain ⟨c, hc, hrest⟩ := ih h
              exact ⟨c, List.mem_cons_of_mem _ hc, hrest⟩
          | leave ctl' r =>
              rw [interpList_leave hone] at h
              cases h

theorem inTurn_subset (type : GroupType) (children : List Modcallable)
    (i : Nat) : inTurn type children i ⊆ children := by
  have hdrop := List.drop_subset i children
  have htake := List.take_subset i children
  have hone : (children.drop i).take 1 ⊆ children :=
    fun c hc => hdrop (List.take_subset 1 _ hc)
  cases type with
  | modLoadBalance => exact hone
  | modSwitch => exact hone
  | modRedundantLoadBalance => exact List.append_subset.mpr ⟨hdrop, htake⟩
  | modGroup => exact hdrop
  | modIf => exact hdrop
  | modElse => exact hdrop
  | modElsif => exact hdrop
  | modCase => exact hdrop
  | modPolicy => exact hdrop

theorem chooseChild_none
    (h : chooseChild ext mc type children request = none) :
    type = .modSwitch ∧ mc.name = none := by
  unfold chooseChild at h
  cases type with
  | modSwitch =>
      dsimp only at h
      split at h
      · next hname => exact ⟨rfl, hname⟩
      · cases h
  | modLoadBalance => cases h
  | modRedundantLoadBalance => cases h
  | modGroup => cases h
  | modIf => cases h
  | modElse => cases h
  | modElsif => cases h
  | modCase => cases h
  | modPolicy => cases h

theorem interpGroup_error
    (h : interpGroup ext interp component parent mc type children ctl
      = .error e) :
    (type = .modSwitch ∧ mc.name = none ∧ ∃ request, e = .exited request)
      ∨ ∃ c ∈ children, ∃ ctl priority result,
        interp c ctl priority result = .error e := by
  unfold interpGroup at h
  rcases hchoose : chooseChild ext mc type children ctl.request with
    - | ⟨- | i, request⟩
  · rw [hchoose] at h
    cases h
    obtain ⟨htype, hname⟩ := chooseChild_none hchoose
    exact .inl ⟨htype, hname, _, rfl⟩
  · rw [hchoose] at h
    cases h
  · rw [hchoose] at h
    cases hlist : interpList interp (inTurn type children i)
        { ctl with request := request } 0
        (defaultComponentResults component) with
    | error e' =>
        dsimp only at h
        rw [hlist] at h
        cases h
        obtain ⟨c, hc, hrest⟩ := interpList_error hlist
        exact .inr ⟨c, inTurn_subset type children i hc, hrest⟩
    | ok left =>
        dsimp only at h
        rw [hlist] at h
        cases h

/-- Where an error of a child comes from. -/
theorem interpNode_error_cases {depth : Nat} {child : Modcallable}
    (h : interpNode ext component depth (some type) child ctl priority result
      = .error e) :
    IsStopped e ∨ ∃ mc t children ctl, child = .group mc t children
      ∧ ((depth = 0 ∧ ∃ request, e = .exited request)
        ∨ ∃ d, depth = d + 1
          ∧ interpGroup ext (interpNode ext component d (some t)) component
            (some type) mc t children ctl = .error e) := by
  unfold interpNode at h
  by_cases hstop : ctl.request.stopProcessing = true
  · rw [if_pos hstop] at h
    cases h
    exact .inl ⟨_, rfl, hstop⟩
  · rw [if_neg hstop] at h
    cases child with
    | group mc t children =>
        dsimp only at h
        generalize (if t = .modElse ∨ t = .modElsif
          then { ctl with myresult := result } else ctl) = ctl' at h
        split at h
        · cases h
        · rcases hcond : conditionHolds ext mc t ctl' with ⟨- | -, ctl''⟩
          · rw [hcond] at h
            cases h
          · rw [hcond] at h
            refine .inr ⟨mc, t, children, ctl'', rfl, ?_⟩
            cases depth with
            | zero =>
                cases h
                exact .inl ⟨rfl, _, rfl⟩
            | succ d =>
                refine .inr ⟨d, rfl, ?_⟩
                cases hgroup : interpGroup ext
                    (interpNode ext component d (some t)) component
                    (some type) mc t children ctl'' with
                | error e' =>
                    dsimp only at h
                    rw [hgroup] at h
                    cases h
                    rfl
                | ok left =>
                    dsimp only at h
                    rw [hgroup] at h
                    cases h
    | single mc modinst => cases h
    | update mc vps => cases h
    | reference mc refName => cases h
    | xlat mc exec name => cases h

/-- An error is that the run was stopped, or the tree does not fit. -/
theorem interpNode_error {depth : Nat} {child : Modcallable}
    (h : interpNode ext component depth (some type) child ctl priority result
      = .error e) :
    IsStopped e
      ∨ ((∃ request, e = .exited request) ∧ ¬ FitsStack depth child) := by
  induction depth generalizing type child ctl priority result e with
  | zero =>
      rcases interpNode_error_cases h with hstop
        | ⟨mc, t, children, ctl', rfl, ⟨-, hexit⟩ | ⟨d, hd, -⟩⟩
      · exact .inl hstop
      · refine .inr ⟨hexit, fun hfits => ?_⟩
        cases hfits
      · exact absurd hd (Nat.succ_ne_zero d).symm
  | succ depth ih =>
      rcases interpNode_error_cases h with hstop
        | ⟨mc, t, children, ctl', rfl, ⟨hzero, -⟩ | ⟨d, hd, hgroup⟩⟩
      · exact .inl hstop
      · exact absurd hzero (Nat.succ_ne_zero depth)
      · rw [← Nat.succ.inj hd] at hgroup
        rcases interpGroup_error hgroup with ⟨htype, hname, hexit⟩
          | ⟨c, hc, ctl'', priority', result', hchild⟩
        · refine .inr ⟨hexit, fun hfits => ?_⟩
          cases hfits with
          | group hsome hall => exact hsome htype hname
        · rcases ih hchild with hstop | ⟨hexit, hnot⟩
          · exact .inl hstop
          · refine .inr ⟨hexit, fun hfits => ?_⟩
            cases hfits with
            | group hsome hall => exact hnot (hall c hc)

end errors

-- ======== groups

section groups

variable {ext : ModExternals σ} {component : RlmComponent} {mc : ModHead}
  {type : GroupType} {children : List Modcallable}
  {request : ModRequest σ}

/-- The variables of `modcall` at its start. -/
def startControl (component : RlmComponent) (request : ModRequest σ) :
    ModControl σ :=
  { request := request, myresult := defaultComponentResults component
    wasIf := false, ifTaken := false }

/-- What `modcall` makes of the group that it is called with. -/
def groupEnd : Except (ModEnd σ) (ModControl σ) → ModEnd σ
  | .error e => e
  | .ok ctl => .returned ctl.myresult ctl.request

/-- A group without a condition is neither skipped nor tested. -/
theorem unconditional (htype : ¬ type.Conditional) (ctl : ModControl σ) :
    ¬ (type = .modElse ∨ type = .modElsif) ∧ skips type ctl = false
      ∧ conditionHolds ext mc type ctl = (true, ctl) := by
  have hchain : ¬ (type = .modElse ∨ type = .modElsif) :=
    fun h => htype (.inr h)
  refine ⟨hchain, decide_eq_false fun h => hchain h.1, if_neg fun h => ?_⟩
  rcases h with hif | helsif
  · exact htype (.inl hif)
  · exact htype (.inr (.inr helsif))

/-- It is entered, where there is room. -/
theorem interpNode_group {depth : Nat} {parent : Option GroupType}
    {ctl : ModControl σ} (htype : ¬ type.Conditional) (priority : Int)
    (result : RlmModule) (hstop : ctl.request.stopProcessing = false) :
    interpNode ext component (depth + 1) parent (.group mc type children) ctl
        priority result
      = interpGroup ext (interpNode ext component depth (some type))
          component parent mc type children ctl
        >>= fun ctl => afterGroup parent (.group mc type children) ctl
          priority result := by
  obtain ⟨hchain, hskips, hcond⟩ := @unconditional σ ext mc type htype ctl
  rw [interpNode, if_neg (by rw [hstop]; exact Bool.false_ne_true)]
  dsimp only
  rw [if_neg hchain, hskips, if_neg Bool.false_ne_true, hcond]

theorem interpNode_full {parent : Option GroupType} {ctl : ModControl σ}
    (htype : ¬ type.Conditional) (priority : Int) (result : RlmModule)
    (hstop : ctl.request.stopProcessing = false) :
    interpNode ext component 0 parent (.group mc type children) ctl priority
      result = .error (.exited ctl.request) := by
  obtain ⟨hchain, hskips, hcond⟩ := @unconditional σ ext mc type htype ctl
  rw [interpNode, if_neg (by rw [hstop]; exact Bool.false_ne_true)]
  dsimp only
  rw [if_neg hchain, hskips, if_neg Bool.false_ne_true, hcond]
  rfl

/-- `modcall` of a group that has no condition. -/
theorem interp_group (htype : ¬ type.Conditional)
    (hstop : request.stopProcessing = false) :
    interp ext component (some (.group mc type children)) request
      = groupEnd (interpGroup ext
        (interpNode ext component (modcallStackMax - 2) (some type))
        component none mc type children (startControl component request)) := by
  have hnode := @interpNode_group σ ext component mc type children
    (modcallStackMax - 2) none (startControl component request) htype 0
    (defaultComponentResults component) hstop
  unfold interp
  dsimp only
  rw [show modcallStackMax - 1 = modcallStackMax - 2 + 1 from rfl]
  unfold startControl at hnode
  rw [hnode]
  unfold startControl
  cases interpGroup ext
      (interpNode ext component (modcallStackMax - 2) (some type)) component
      none mc type children
      { request := request, myresult := defaultComponentResults component
        wasIf := false, ifTaken := false } with
  | error e => rfl
  | ok ctl => rfl

/-- A run that is stopped before it starts. -/
theorem interp_stopped (c : Modcallable)
    (hstop : request.stopProcessing = true) :
    interp ext component (some c) request = .returned .fail request := by
  unfold interp interpNode
  dsimp only
  rw [if_pos hstop]
  rfl

/-- A tree that fits on the stack is interpreted to an end. -/
theorem interp_returns (component : RlmComponent)
    (request : ModRequest σ) (htype : ¬ type.Conditional)
    (hfits : FitsStack (modcallStackMax - 1) (.group mc type children)) :
    ∃ r request', interp ext component (some (.group mc type children))
      request = .returned r request' := by
  cases hstop : request.stopProcessing with
  | true => exact ⟨_, _, interp_stopped _ hstop⟩
  | false =>
      rw [interp_group htype hstop]
      cases hgroup : interpGroup ext
          (interpNode ext component (modcallStackMax - 2) (some type))
          component none mc type children (startControl component request)
        with
      | ok ctl => exact ⟨_, _, rfl⟩
      | error e =>
          cases hfits with
          | group hname hall =>
              rcases interpGroup_error hgroup with ⟨hswitch, hnone, -⟩
                | ⟨c, hc, ctl, priority, result, hchild⟩
              · exact absurd hnone (hname hswitch)
              · rcases interpNode_error hchild with ⟨req, rfl, -⟩
                  | ⟨-, hnot⟩
                · exact ⟨_, _, rfl⟩
                · exact absurd (hall c hc) hnot

/-- A tree that fits on the stack is run to an end: `modcall` returns. -/
theorem modcall_returns (component : RlmComponent)
    (request : ModRequest σ) (htype : ¬ type.Conditional)
    (hfits : FitsStack (modcallStackMax - 1) (.group mc type children)) :
    ∃ n r request', ∀ fuel, n ≤ fuel →
      modcall ext component (some (.group mc type children)) request fuel
        = some (.returned r request') := by
  obtain ⟨n, hn⟩ := modcall_eq_interp ext component
    (some (.group mc type children)) request
  obtain ⟨r, request', hend⟩ := interp_returns component request htype hfits
  exact ⟨n, r, request', fun fuel hfuel => (hn fuel hfuel).trans
    (congrArg some hend)⟩

/-- Modules that write down their names; the first of them always
fails. The random numbers pick the last child of a group. -/
def loggedModules : ModExternals (List (List UInt8)) where
  methods sp _ request :=
    (if sp.name = [1] then .fail else .ok,
      { request with rest := request.rest ++ [sp.name] })
  evaluateCondition request _ _ := (some true, request)
  updateAttrlist _ _ request := (.updated, request)
  indexedModcall _ request := (.noop, request)
  getVpValue _ _ := none
  radiusXlat _ request := ([], request)
  execProgram _ request := request
  frRand request := (0, request)

/-- Two modules of a redundant group. -/
def redundantPair : List Modcallable :=
  [.single { name := some [1], method := .autz
             actions := defaultActions .autz .redundant } { name := [1] },
   .single { name := some [2], method := .autz
             actions := defaultActions .autz .redundant } { name := [2] }]

def pairHead : ModHead :=
  { name := none, method := .autz, actions := defaultActions .autz .simple }

/-- The pair, inside a group of its own. -/
def nestedPair : List Modcallable :=
  [.group pairHead .modRedundantLoadBalance redundantPair.reverse,
    .xlat pairHead false [3]]

theorem nestedPair_fits :
    FitsStack (modcallStackMax - 1) (.group pairHead .modGroup nestedPair) := by
  refine .group ?_ fun c hc => ?_
  · intro htype
    cases htype
  · rcases List.mem_pair.mp hc with rfl | rfl
    · refine .group ?_ fun c hc => ?_
      · intro htype
        cases htype
      · rcases List.mem_pair.mp hc with rfl | rfl
        · exact .single _ _ _
        · exact .single _ _ _
    · exact .xlat _ _ _ _

theorem modGroup_unconditional : ¬ GroupType.modGroup.Conditional := by
  unfold GroupType.Conditional
  simp

/-- What a child without a condition does before its answer counts. -/
def runChild (ext : ModExternals σ) (component : RlmComponent)
    (depth : Nat) (type : GroupType) (child : Modcallable)
    (ctl : ModControl σ) : Except (ModEnd σ) (ModControl σ) :=
  if ctl.request.stopProcessing then throw (.returned .fail ctl.request)
  else
    match child with
    | .group mc t children =>
        match depth with
        | 0 => throw (.exited ctl.request)
        | depth + 1 =>
            interpGroup ext (interpNode ext component depth (some t))
              component (some type) mc t children ctl
    | leaf => return callChild ext component leaf ctl

/-- A child that always gives its group an answer. -/
def Modcallable.Plain : Modcallable → Prop
  | .group _ type _ => ¬ type.Conditional
  | _ => True

theorem interpNode_plain {child : Modcallable} (hplain : child.Plain)
    (depth : Nat) (ctl : ModControl σ) (priority : Int)
    (result : RlmModule) :
    interpNode ext component depth (some type) child ctl priority result
      = runChild ext component depth type child ctl
        >>= fun ctl => .ok (settleResult child ctl priority result) := by
  cases hstop : ctl.request.stopProcessing with
  | true =>
      unfold interpNode runChild
      rw [if_pos hstop, if_pos hstop]
      rfl
  | false =>
      have hgo : ¬ ctl.request.stopProcessing = true := by
        rw [hstop]
        exact Bool.false_ne_true
      have hrun : runChild ext component depth type child ctl = _ :=
        if_neg hgo
      rw [hrun]
      cases child with
      | group mc t children =>
          cases depth with
          | zero => exact interpNode_full hplain priority result hstop
          | succ depth => exact interpNode_group hplain priority result hstop
      | single mc modinst =>
          unfold interpNode
          exact if_neg hgo
      | update mc vps =>
          unfold interpNode
          exact if_neg hgo
      | reference mc refName =>
          unfold interpNode
          exact if_neg hgo
      | xlat mc exec name =>
          unfold interpNode
          exact if_neg hgo

theorem modLoop_more {n : Nat} {x : ModNext σ} {e : ModEnd σ}
    (h : modLoop ext component n x = some e) (k : Nat) :
    modLoop ext component (n + k) x = some e := by
  induction n generalizing x with
  | zero =>
      cases x with
      | loop ctl top below => cases h
      | ended e' =>
          cases k with
          | zero => exact h
          | succ k => exact h
  | succ n ih =>
      rw [Nat.succ_add]
      cases x with
      | loop ctl top below => exact ih h
      | ended e' => exact h

/-- What `modcall` returns does not depend on the bound. -/
theorem modcall_interp {c : Option Modcallable} {fuel : Nat} {e : ModEnd σ}
    (h : modcall ext component c request fuel = some e) :
    interp ext component c request = e := by
  obtain ⟨n, hn⟩ := modcall_eq_interp ext component c request
  have hall := hn (fuel + n) (Nat.le_add_left n fuel)
  rw [show modcall ext component c request (fuel + n) = some e from
    modLoop_more h n] at hall
  exact (Option.some.inj hall).symm

/-- The nested pair is run to an end: the first module fails, the second
does not. -/
theorem modcall_returns_pair :
    ∃ n, ∀ fuel, n ≤ fuel →
      modcall loggedModules .autz
        (some (.group pairHead .modGroup nestedPair)) { rest := [] } fuel
          = some (.returned .ok
            { rest := [[1], [2]], simulMax := 2 }) := by
  obtain ⟨n, r, request', hn⟩ := @modcall_returns _ loggedModules pairHead
    .modGroup nestedPair .autz { rest := [] } modGroup_unconditional
    nestedPair_fits
  refine ⟨n, fun fuel hfuel => ?_⟩
  rw [hn fuel hfuel, ← modcall_interp (hn fuel hfuel)]
  exact congrArg some (@modcall_interp _ loggedModules .autz { rest := [] }
    (some (.group pairHead .modGroup nestedPair)) 9 _ rfl)

/-- What `modcall` returns for a group without a condition whose children
have none: it is the result that the answers of its children make, where
the children are run in turn from the one that is chosen, up to the first
whose action ends the group. -/
theorem modcall_group_result {fuel : Nat} {r : RlmModule}
    {request' : ModRequest σ} (htype : ¬ type.Conditional)
    (hplain : ∀ c ∈ children, c.Plain)
    (hrun : modcall ext component (some (.group mc type children)) request
      fuel = some (.returned r request')) :
    (r = .fail ∧ request'.stopProcessing = true)
      ∨ (chooseChild ext mc type children request = some (none, request')
        ∧ r = defaultComponentResults component)
      ∨ ∃ i chosen as ctl,
        chooseChild ext mc type children request = some (some i, chosen)
          ∧ childAnswers (runChild ext component (modcallStackMax - 2) type)
            (inTurn type children i) (startControl component chosen)
              = .ok (as, ctl)
          ∧ ctl.request = request'
          ∧ GroupResult (defaultComponentResults component) as r := by
  have hinterp := modcall_interp hrun
  cases hstop : request.stopProcessing with
  | true =>
      rw [interp_stopped _ hstop] at hinterp
      cases hinterp
      exact .inl ⟨rfl, hstop⟩
  | false =>
      rw [interp_group htype hstop, interpGroup] at hinterp
      rcases hchoose : chooseChild ext mc type children request with
        - | ⟨- | i, chosen⟩
      · rw [startControl, hchoose] at hinterp
        cases hinterp
      · rw [startControl, hchoose] at hinterp
        cases hinterp
        exact .inr (.inl ⟨rfl, rfl⟩)
      · rw [startControl, hchoose] at hinterp
        dsimp only at hinterp
        cases hlist : interpList
            (interpNode ext component (modcallStackMax - 2) (some type))
            (inTurn type children i) (startControl component chosen) 0
            (defaultComponentResults component) with
        | error e =>
            rw [startControl] at hlist
            rw [hlist] at hinterp
            obtain ⟨c, -, ctl, priority, result, hchild⟩ :=
              interpList_error hlist
            rcases interpNode_error hchild with ⟨req, rfl, hreq⟩
              | ⟨⟨req, rfl⟩, -⟩
            · cases hinterp
              exact .inl ⟨rfl, hreq⟩
            · cases hinterp
        | ok left =>
            obtain ⟨ctl, result⟩ := left
            obtain ⟨as, has, hresult⟩ := interpList_result
              (fun c hc ctl priority result => interpNode_plain
                (hplain c (inTurn_subset type children i hc))
                (modcallStackMax - 2) ctl priority result) hlist
            rw [startControl] at hlist
            rw [hlist] at hinterp
            cases hinterp
            exact .inr (.inr ⟨i, chosen, as, ctl, rfl, has, rfl, hresult⟩)

/-- What the pair answers when the first module is called first. -/
def pairAnswers : List Answer := [(1, .fail), (modActionReturn, .ok)]

/-- The variables of `modcall` behind the pair. -/
def pairControl : ModControl (List (List UInt8)) :=
  { request := { rest := [[1], [2]], simulMax := 2 }, myresult := .ok
    wasIf := false, ifTaken := false }

/-- The first module fails, the answer of the second is the result. -/
theorem modcall_group_result_pair :
    childAnswers (runChild loggedModules .autz (modcallStackMax - 2)
        .modGroup) redundantPair (startControl .autz { rest := [] })
        = .ok (pairAnswers, pairControl)
      ∧ GroupResult .notfound pairAnswers .ok := by
  have hplain : ∀ c ∈ redundantPair, c.Plain := by
    intro c hc
    rcases List.mem_pair.mp hc with rfl | rfl
    · trivial
    · trivial
  rcases @modcall_group_result _ loggedModules .autz pairHead .modGroup
    redundantPair { rest := [] } 5 .ok pairControl.request
    modGroup_unconditional hplain rfl
    with ⟨h, -⟩ | ⟨h, -⟩ | ⟨i, chosen, as, ctl, hchoose, has, -, hr⟩
  · cases h
  · cases h
  · cases hchoose
    have hanswers : Except.ok (pairAnswers, pairControl)
        = (Except.ok (as, ctl) : Except (ModEnd (List (List UInt8))) _) := has
    cases hanswers
    exact ⟨has, hr⟩

/-- The answers are those of the children, one each. -/
theorem childAnswers_spec {run : Modcallable → ModControl σ →
      Except (ModEnd σ) (ModControl σ)} {ctl ctl' : ModControl σ}
    {as : List Answer} (h : childAnswers run children ctl = .ok (as, ctl')) :
    (∀ a ∈ as, ∃ c ∈ children, a.1 = c.mc.actions a.2)
      ∧ as.length ≤ children.length
      ∧ ((∀ a ∈ as, ¬ EndsGroup a) → as.length = children.length) := by
  induction children generalizing ctl as with
  | nil =>
      cases h
      exact ⟨fun a ha => absurd ha List.not_mem_nil, Nat.le_refl 0,
        fun _ => rfl⟩
  | cons child rest ih =>
      cases hone : run child ctl with
      | error e =>
          rw [childAnswers, hone] at h
          cases h
      | ok mid =>
          by_cases hends : EndsGroup (answerOfChild child mid)
          · rw [childAnswers_ends hone hends] at h
            cases h
            refine ⟨fun a ha => ?_, Nat.succ_le_succ (Nat.zero_le _),
              fun hopen => absurd hends (hopen _ List.mem_cons_self)⟩
            rw [List.mem_singleton.mp ha]
            exact ⟨child, List.mem_cons_self, rfl⟩
          · rw [childAnswers, hone, ok_bind, if_neg hends] at h
            cases hrest : childAnswers run rest mid with
            | error e =>
                rw [hrest] at h
                cases h
            | ok left =>
                obtain ⟨bs, last⟩ := left
                rw [hrest] at h
                cases h
                obtain ⟨hmem, hle, hall⟩ := ih hrest
                refine ⟨fun a ha => ?_, Nat.succ_le_succ hle, fun hopen => ?_⟩
                · rcases List.mem_cons.mp ha with rfl | ha
                  · exact ⟨child, List.mem_cons_self, rfl⟩
                  · obtain ⟨c, hc, hact⟩ := hmem a ha
                    exact ⟨c, List.mem_cons_of_mem _ hc, hact⟩
                · exact congrArg (· + 1) (hall fun a ha =>
                    hopen a (List.mem_cons_of_mem _ ha))

-- ======== redundant

/-- A module that any answer but `fail` of ends the group, as the modules
of a redundant group have it by default outside accounting. -/
def FailsOver (c : Modcallable) : Prop :=
  ∃ mc modinst, c = .single mc modinst
    ∧ ∃ component ≠ .acct, mc.actions = defaultActions component .redundant

theorem FailsOver.actions {c : Modcallable} (h : FailsOver c)
    (r : RlmModule) :
    c.mc.actions r = if r = .fail then 1 else modActionReturn := by
  obtain ⟨mc, modinst, rfl, component, hacct, hactions⟩ := h
  show mc.actions r = _
  rw [hactions]
  cases component with
  | acct => exact absurd rfl hacct
  | auth => cases r <;> rfl
  | autz => cases r <;> rfl
  | preacct => cases r <;> rfl
  | sess => cases r <;> rfl
  | preProxy => cases r <;> rfl
  | postProxy => cases r <;> rfl
  | postAuth => cases r <;> rfl
  | recvCoa => cases r <;> rfl
  | sendCoa => cases r <;> rfl

/-- The modules of a redundant group are called until one does not
fail. -/
theorem failsOver_result {run : Modcallable → ModControl σ →
      Except (ModEnd σ) (ModControl σ)} {ctl ctl' : ModControl σ}
    {as : List Answer} {first r : RlmModule}
    (hall : ∀ c ∈ children, FailsOver c) (hne : children ≠ [])
    (has : childAnswers run children ctl = .ok (as, ctl'))
    (hr : GroupResult first as r) :
    (∃ k < children.length,
        as.map Prod.snd = List.replicate k .fail ++ [r] ∧ r ≠ .fail)
      ∨ (as.map Prod.snd = List.replicate children.length .fail
        ∧ r = .fail) := by
  obtain ⟨hmem, hle, hlen⟩ := childAnswers_spec has
  have hact : ∀ a ∈ as, a.1 = if a.2 = .fail then 1 else modActionReturn := by
    intro a ha
    obtain ⟨c, hc, hc'⟩ := hmem a ha
    rw [hc', (hall c hc).actions]
  have hopen {bs : List Answer} (hsub : bs ⊆ as)
      (h : ∀ a ∈ bs, ¬ EndsGroup a) :
      bs.map Prod.snd = List.replicate bs.length .fail := by
    rw [List.eq_replicate_iff, List.length_map]
    refine ⟨rfl, fun x hx => ?_⟩
    obtain ⟨a, ha, rfl⟩ := List.mem_map.mp hx
    by_contra hother
    refine h a ha (.inl ?_)
    rw [hact a (hsub ha), if_neg hother]
  cases hr with
  | returned front r hfront =>
      have hlast := hact (modActionReturn, r) (by simp)
      refine .inl ⟨front.length, ?_, ?_, fun hfail => ?_⟩
      · rw [List.length_append, List.length_singleton] at hle
        omega
      · rw [List.map_append, hopen (List.subset_append_left _ _) hfront]
        rfl
      · rw [if_pos hfail] at hlast
        cases hlast
  | rejected front r hfront =>
      have hlast := hact (modActionReject, r) (by simp)
      dsimp only at hlast
      split at hlast
      · cases hlast
      · cases hlast
  | greatest front back action r hall' hpos hfront hback =>
      have hfail := hopen (List.Subset.refl _) hall'
      refine .inr ⟨?_, ?_⟩
      · rw [hfail, hlen hall']
      · have hin : r ∈ (front ++ (action, r) :: back).map Prod.snd := by simp
        rw [hfail] at hin
        exact List.eq_of_mem_replicate hin
  | untouched hall' hneg =>
      exfalso
      have hlen' := hlen hall'
      cases as with
      | nil =>
          exact hne (List.length_eq_zero_iff.mp hlen'.symm)
      | cons a as =>
          have hone := hact a List.mem_cons_self
          have hlt := hneg a List.mem_cons_self
          have hnot := hall' a List.mem_cons_self
          split at hone
          · omega
          · exact hnot (.inl hone)

theorem inTurn_perm (children : List Modcallable) (i : Nat) :
    (inTurn .modRedundantLoadBalance children i).Perm children := by
  show (children.drop i ++ children.take i).Perm children
  exact List.perm_append_comm.trans (.of_eq (List.take_append_drop i children))

/-- What the modules of a redundant group come to that are tried in turn:
the first that does not fail, `fail` when all of them do, or `fail` when
the run is stopped before one of them. -/
inductive FailOver (run : Modcallable → ModControl σ →
    Except (ModEnd σ) (ModControl σ)) (tried : List Modcallable)
    (ctl : ModControl σ) : RlmModule → ModRequest σ → Prop
  | answered {as : List Answer} {ctl' : ModControl σ} {k : Nat}
      {r : RlmModule} (has : childAnswers run tried ctl = .ok (as, ctl'))
      (hk : k < tried.length)
      (hanswers : as.map Prod.snd = List.replicate k .fail ++ [r])
      (hr : r ≠ .fail) : FailOver run tried ctl r ctl'.request
  | failed {as : List Answer} {ctl' : ModControl σ}
      (has : childAnswers run tried ctl = .ok (as, ctl'))
      (hanswers : as.map Prod.snd = List.replicate tried.length .fail) :
      FailOver run tried ctl .fail ctl'.request
  | stopped {request : ModRequest σ}
      (has : childAnswers run tried ctl = .error (.returned .fail request))
      (hstop : request.stopProcessing = true) :
      FailOver run tried ctl .fail request

/-- The modules that are run in turn settle the group so. -/
theorem interpList_failOver {tried : List Modcallable} {depth : Nat}
    {ctl : ModControl σ} {r : RlmModule} {request' : ModRequest σ}
    (first : RlmModule) (hne : tried ≠ [])
    (hall : ∀ c ∈ tried, FailsOver c)
    (h : (interpList (interpNode ext component depth (some type)) tried ctl 0
        first = .error (.returned r request'))
      ∨ ∃ ctl', interpList (interpNode ext component depth (some type)) tried
          ctl 0 first = .ok (ctl', r) ∧ ctl'.request = request') :
    FailOver (runChild ext component depth type) tried ctl r request' := by
  have hrun : ∀ c ∈ tried, ∀ ctl priority result,
      interpNode ext component depth (some type) c ctl priority result
        = runChild ext component depth type c ctl
          >>= fun ctl => .ok (settleResult c ctl priority result) := by
    intro c hc
    obtain ⟨m, modinst, rfl, -⟩ := hall c hc
    have hplain : (Modcallable.single m modinst).Plain := trivial
    exact interpNode_plain hplain depth
  rcases h with herror | ⟨ctl', hlist, rfl⟩
  · have has := childAnswers_error hrun herror
    obtain ⟨c, hc, ctl'', priority, result, hchild⟩ :=
      interpList_error herror
    obtain ⟨m, modinst, rfl, -⟩ := hall c hc
    rcases interpNode_error hchild with ⟨req, hreq, hstop⟩ | ⟨-, hnot⟩
    · cases hreq
      exact .stopped has hstop
    · exact absurd (.single _ _ _) hnot
  · obtain ⟨as, has, hr⟩ := interpList_result hrun hlist
    rcases failsOver_result hall hne has hr with ⟨k, hk, hanswers, hother⟩
      | ⟨hanswers, rfl⟩
    · exact .answered has hk hanswers hother
    · exact .failed has hanswers

/-- A redundant-load-balance group of modules tries each of them at most
once, from the one that is picked on, until one does not fail; that one's
answer is what `modcall` returns. It does return. -/
theorem modcall_redundant (component : RlmComponent) (mc : ModHead)
    (request : ModRequest σ) (hne : children ≠ [])
    (hall : ∀ c ∈ children, FailsOver c) :
    ∃ n r request', (∀ fuel, n ≤ fuel →
        modcall ext component
          (some (.group mc .modRedundantLoadBalance children)) request fuel
            = some (.returned r request'))
      ∧ ((request.stopProcessing = true ∧ r = .fail ∧ request' = request)
        ∨ ∃ i chosen,
          chooseChild ext mc .modRedundantLoadBalance children request
              = some (some i, chosen)
            ∧ (inTurn .modRedundantLoadBalance children i).Perm children
            ∧ FailOver (runChild ext component (modcallStackMax - 2)
                .modRedundantLoadBalance)
              (inTurn .modRedundantLoadBalance children i)
              (startControl component chosen) r request') := by
  have htype : ¬ GroupType.modRedundantLoadBalance.Conditional := by
    unfold GroupType.Conditional
    simp
  have hfits : FitsStack (modcallStackMax - 1)
      (.group mc .modRedundantLoadBalance children) := by
    refine .group (fun h => by cases h) fun c hc => ?_
    obtain ⟨m, modinst, rfl, -⟩ := hall c hc
    exact .single _ _ _
  obtain ⟨n, hn⟩ := modcall_eq_interp ext component
    (some (.group mc .modRedundantLoadBalance children)) request
  obtain ⟨r, request', hend⟩ := interp_returns component request htype hfits
  refine ⟨n, r, request', fun fuel hfuel => (hn fuel hfuel).trans
    (congrArg some hend), ?_⟩
  cases hstop : request.stopProcessing with
  | true =>
      rw [interp_stopped _ hstop] at hend
      cases hend
      exact .inl ⟨rfl, rfl, rfl⟩
  | false =>
      rw [interp_group htype hstop, interpGroup] at hend
      rcases hchoose : chooseChild ext mc .modRedundantLoadBalance children
        request with - | ⟨- | i, chosen⟩
      · cases hchoose
      · cases children with
        | nil => exact absurd rfl hne
        | cons c rest => cases hchoose
      · have hperm := inTurn_perm children i
        refine .inr ⟨i, chosen, rfl, hperm, interpList_failOver
          (defaultComponentResults component)
          (fun hnil => hne (List.nil_perm.mp (hnil ▸ hperm)))
          (fun c hc => hall c (hperm.mem_iff.mp hc)) ?_⟩
        rw [startControl, hchoose] at hend
        dsimp only at hend
        cases hlist : interpList (interpNode ext component
            (modcallStackMax - 2) (some .modRedundantLoadBalance))
            (inTurn .modRedundantLoadBalance children i)
            (startControl component chosen) 0
            (defaultComponentResults component) with
        | error e =>
            rw [startControl] at hlist
            rw [hlist] at hend
            exact .inl (congrArg Except.error hend)
        | ok left =>
            rw [startControl] at hlist
            rw [hlist] at hend
            cases hend
            exact .inr ⟨left.1, rfl, rfl⟩

/-- The second module is tried behind the first, which fails. -/
theorem modcall_redundant_pair :
    ∃ n, (∀ fuel, n ≤ fuel →
        modcall loggedModules .autz (some (.group pairHead
          .modRedundantLoadBalance redundantPair.reverse)) { rest := [] } fuel
          = some (.returned .ok pairControl.request))
      ∧ chooseChild loggedModules pairHead .modRedundantLoadBalance
          redundantPair.reverse { rest := [] } = some (some 1, { rest := [] })
      ∧ FailOver (runChild loggedModules .autz (modcallStackMax - 2)
          .modRedundantLoadBalance) redundantPair
        (startControl .autz { rest := [] }) .ok pairControl.request := by
  have hall : ∀ c ∈ redundantPair.reverse, FailsOver c := by
    intro c hc
    rcases List.mem_pair.mp hc with rfl | rfl
    · exact ⟨_, _, rfl, .autz, by decide, rfl⟩
    · exact ⟨_, _, rfl, .autz, by decide, rfl⟩
  obtain ⟨n, r, request', hn, hend⟩ := @modcall_redundant _ loggedModules
    redundantPair.reverse .autz pairHead { rest := [] }
    (List.cons_ne_nil _ _) hall
  have hsame : ModEnd.returned .ok pairControl.request
      = ModEnd.returned r request' :=
    (@modcall_interp _ loggedModules .autz { rest := [] }
      (some (.group pairHead .modRedundantLoadBalance
        redundantPair.reverse)) 5 _ rfl).symm.trans
          (modcall_interp (hn n (Nat.le_refl n)))
  cases hsame
  rcases hend with ⟨h, -⟩ | ⟨i, chosen, hchoose, -, hfail⟩
  · cases h
  · refine ⟨n, hn, rfl, ?_⟩
    cases hchoose
    exact hfail

end groups

end WinRadius
