import AutoAgents.RequirementTransitions

/-! The check of the replacement graph. Whatever the links are, it returns; what it accepts ends, on every branch, in a record
that is active or deferred; and it does not look at a record that no link leads to. -/

namespace AutoAgents.Requirements

open Base

variable {φ : Type} {h : Host φ} {previous current current' : ById φ} {proven : List String}

/-! ### The calls it makes -/

/-- The arguments of one call of `branch_reaches_available_descendant` that change. -/
structure Branch where
  parentId : String
  replacementId : String
  ancestors : List String

/-- A call leads to another: the replacement is itself replaced. -/
inductive Host.Calls (h : Host φ) (previous current : ById φ) (proven : List String) : Branch → Branch → Prop
  | downstream {branch : Branch} {replacement : Fields φ} {links : List String} {downstreamId : String} :
      branch.replacementId ∉ branch.ancestors →
      edgeIsSafe previous current proven branch.parentId branch.replacementId = true →
      current.lookup branch.replacementId = some replacement →
      strictRequirementLinks replacement "superseded_by" = some links →
      h.text replacement "status" "active" = "superseded" →
      downstreamId ∈ links →
      Host.Calls h previous current proven ⟨branch.replacementId, downstreamId, branch.replacementId :: branch.ancestors⟩ branch

/-- No chain of calls is endless: each call has one id of the trace more among its ancestors. -/
theorem calls_wellFounded (h : Host φ) (previous current : ById φ) (proven : List String) :
    WellFounded (h.Calls previous current proven) := by
  refine Subrelation.wf ?_ (measure fun branch : Branch => unvisited current branch.ancestors).wf
  intro inner outer hcall
  cases hcall with
  | downstream hfresh hsafe _ _ _ _ => exact unvisited_lt (edgeIsSafe_known hsafe) hfresh

/-! ### What it accepts -/

/-- Every branch that starts at the id ends in a record that is active or deferred. -/
inductive Host.Ends (h : Host φ) (current : ById φ) : String → Prop
  | available {id : String} {item : Fields φ} :
      current.lookup id = some item →
      h.text item "status" "active" ∈ ["active", "deferred"] →
      strictRequirementLinks item "superseded_by" = some [] →
      Host.Ends h current id
  | replaced {id : String} {item : Fields φ} {links : List String} :
      current.lookup id = some item →
      h.text item "status" "active" = "superseded" →
      strictRequirementLinks item "superseded_by" = some links →
      links ≠ [] →
      (∀ link ∈ links, Host.Ends h current link) →
      Host.Ends h current id

theorem branch_ends {parentId replacementId : String} {ancestors : List String}
    (haccepts : h.branchReachesAvailableDescendant previous current proven parentId replacementId ancestors = true) :
    h.Ends current replacementId := by
  fun_induction Host.branchReachesAvailableDescendant h previous current proven parentId replacementId ancestors with
  | case1 | case2 | case3 => cases haccepts
  | case4 parentId replacementId ancestors hfresh replacement hlookup downstream hlinks hstatus =>
      rw [List.isEmpty_iff] at haccepts
      exact .available hlookup hstatus (haccepts ▸ hlinks)
  | case5 => cases haccepts
  | case6 parentId replacementId ancestors hfresh replacement hlookup downstream hlinks hstatus hreplaced ih =>
      rw [not_or, not_not] at hreplaced
      refine .replaced hlookup hreplaced.1 hlinks hreplaced.2 ?_
      intro link hlink
      exact ih link (List.all_eq_true.mp haccepts link hlink)

theorem retainedChain_ends {reqId : String} {replacements : List String}
    (haccepts : h.retainedReplacementChain previous current proven reqId replacements = true) :
    replacements ≠ [] ∧ ∀ id ∈ replacements, h.Ends current id := by
  rw [Host.retainedReplacementChain, Bool.and_eq_true, List.all_eq_true] at haccepts
  constructor
  · intro hnil
    simp [hnil] at haccepts
  · exact fun id hid => branch_ends (haccepts.2 id hid)

/-! ### What it does not look at -/

/-- Two traces that differ in one record at most, to which no record of the first is linked. -/
structure Apart (current current' : ById φ) (id : String) : Prop where
  others : ∀ other, other ≠ id → current'.lookup other = current.lookup other
  unlinked : ∀ other item links, other ≠ id → current.lookup other = some item →
    strictRequirementLinks item "superseded_by" = some links → id ∉ links

variable {id : String}

theorem edgeIsSafe_apart (happart : Apart current current' id) {parentId childId : String} (hparent : parentId ≠ id)
    (hchild : childId ≠ id) : edgeIsSafe previous current' proven parentId childId = edgeIsSafe previous current proven parentId childId := by
  rw [edgeIsSafe, edgeIsSafe, happart.others _ hparent, happart.others _ hchild]

theorem branch_apart (happart : Apart current current' id) {parentId replacementId : String} {ancestors : List String}
    (hparent : parentId ≠ id) (hreplacement : replacementId ≠ id) :
    h.branchReachesAvailableDescendant previous current' proven parentId replacementId ancestors =
      h.branchReachesAvailableDescendant previous current proven parentId replacementId ancestors := by
  fun_induction Host.branchReachesAvailableDescendant h previous current proven parentId replacementId ancestors with
  | case1 parentId replacementId ancestors hstop =>
      rw [Host.branchReachesAvailableDescendant, edgeIsSafe_apart happart hparent hreplacement, dif_pos hstop]
  | case2 parentId replacementId ancestors hgo hlookup =>
      rw [Host.branchReachesAvailableDescendant, edgeIsSafe_apart happart hparent hreplacement, dif_neg hgo,
        happart.others _ hreplacement, hlookup]
  | case3 parentId replacementId ancestors hgo replacement hlookup hlinks =>
      rw [Host.branchReachesAvailableDescendant, edgeIsSafe_apart happart hparent hreplacement, dif_neg hgo,
        happart.others _ hreplacement, hlookup]
      simp only [hlinks]
  | case4 parentId replacementId ancestors hgo replacement hlookup downstream hlinks hstatus =>
      rw [Host.branchReachesAvailableDescendant, edgeIsSafe_apart happart hparent hreplacement, dif_neg hgo,
        happart.others _ hreplacement, hlookup]
      simp only [hlinks, if_pos hstatus]
  | case5 parentId replacementId ancestors hgo replacement hlookup downstream hlinks hstatus hstop =>
      rw [Host.branchReachesAvailableDescendant, edgeIsSafe_apart happart hparent hreplacement, dif_neg hgo,
        happart.others _ hreplacement, hlookup]
      simp only [hlinks, if_neg hstatus, if_pos hstop]
  | case6 parentId replacementId ancestors hgo replacement hlookup downstream hlinks hstatus hdown ih =>
      have hother : ∀ link ∈ downstream, link ≠ id := by
        intro link hlink heq
        exact happart.unlinked _ _ _ hreplacement hlookup hlinks (heq ▸ hlink)
      rw [Host.branchReachesAvailableDescendant, edgeIsSafe_apart happart hparent hreplacement, dif_neg hgo,
        happart.others _ hreplacement, hlookup]
      simp only [hlinks, if_neg hstatus, if_neg hdown]
      rw [Bool.eq_iff_iff, List.all_eq_true, List.all_eq_true]
      exact forall₂_congr fun link hlink => by rw [ih link hreplacement (hother link hlink)]

theorem hasReciprocal_apart (happart : Apart current current' id) {reqId : String} {before after : Fields φ} {retained : Bool}
    (hreq : reqId ≠ id) (hafter : current.lookup reqId = some after) :
    h.hasReciprocalUnusedReplacements reqId before after previous current' proven retained =
      h.hasReciprocalUnusedReplacements reqId before after previous current proven retained := by
  rw [Host.hasReciprocalUnusedReplacements, Host.hasReciprocalUnusedReplacements]
  split
  · next replacements prior hreplacements _ =>
      have hother : ∀ link ∈ replacements, link ≠ id := by
        intro link hlink heq
        exact happart.unlinked _ _ _ hreq hafter hreplacements (heq ▸ hlink)
      have hchain : h.retainedReplacementChain previous current' proven reqId replacements =
          h.retainedReplacementChain previous current proven reqId replacements := by
        rw [Host.retainedReplacementChain, Host.retainedReplacementChain]
        congr 1
        rw [Bool.eq_iff_iff, List.all_eq_true, List.all_eq_true]
        exact forall₂_congr fun link hlink => by rw [branch_apart happart hreq (hother link hlink)]
      have hloop : ∀ links : List String, (∀ link ∈ links, link ≠ id) →
          links.allM (h.isReciprocalUnused previous current' proven prior reqId) =
            links.allM (h.isReciprocalUnused previous current proven prior reqId) := by
        intro links hlinks
        induction links with
        | nil => rfl
        | cons link links ih =>
            have hlink : h.isReciprocalUnused previous current' proven prior reqId link =
                h.isReciprocalUnused previous current proven prior reqId link := by
              rw [Host.isReciprocalUnused, Host.isReciprocalUnused, happart.others _ (hlinks link List.mem_cons_self)]
            rw [List.allM_cons, List.allM_cons, hlink, ih fun other hother => hlinks other (List.mem_cons_of_mem _ hother)]
      rw [hchain, hloop replacements hother]
  · rfl

end AutoAgents.Requirements
