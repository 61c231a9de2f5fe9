/-
`UrlRewrite::PerformACLFiltering` (`proxy/http/remap/UrlRewrite.cc`): the filter rules of a mapping (`AclFiltering.h`) and a request.

A rule carries restrictions, and one flag, `match`, goes through the tests of all of them. The loop goes on to the next rule while the
client is enabled. `Matches` says what a rule that matches is: all restrictions that it carries hold. The flag is this, but for two slips:

  - the test of `nonstandard_methods` is the wrong way round: where the rule has such methods, no method that is not standard matches;
  - the restriction to internal requests does not look at `match`, but sets it.

`Slips` are the rules and requests for which these make a difference. `acl_decision_iff` says when the decision is right nevertheless.
-/
import Mathlib
import TrafficServer.Hdrs.HdrToken

namespace TrafficServer.Http.Acl

open TrafficServer.Hdrs

/-! ## Addresses -/

/-- `IpAddr`; an IPv4 address in host order, an IPv6 address as its bytes -/
inductive IpAddr where
  | unspec
  | ip4 (addr : UInt32)
  | ip6 (addr : Vector UInt8 16)
deriving DecidableEq

def memcmp : List UInt8 → List UInt8 → ℤ
  | a :: as, b :: bs => if a < b then -1 else if b < a then 1 else memcmp as bs
  | _, _ => 0

/-- `IpAddr::cmp`: what is not an IP address is below every one that is -/
def IpAddr.cmp : IpAddr → IpAddr → ℤ
  | .ip4 la, .ip4 ra => if la < ra then -1 else if ra < la then 1 else 0
  | .ip4 _, .ip6 _ => -1
  | .ip4 _, .unspec => 1
  | .ip6 l, .ip6 r => memcmp l.toList r.toList
  | .ip6 _, _ => 1
  | .unspec, .unspec => 0
  | .unspec, _ => -1

/-- `ats_is_ip` -/
def IpAddr.isIp (a : IpAddr) : Bool := a ≠ .unspec

/-! ## Rules and requests -/

/-- `src_ip_info_t` -/
structure SrcIpInfo where
  start : IpAddr
  stop : IpAddr
  invert : Bool

def SrcIpInfo.contains (info : SrcIpInfo) (ip : IpAddr) : Bool := ip.cmp info.start ≥ 0 && ip.cmp info.stop ≤ 0

def HTTP_WKSIDX_METHODS_CNT : ℕ := 10

def HTTP_WKSIDX_CONNECT : ℕ := hdrtokenStrs.idxOf "CONNECT"

/-- `acl_filter_rule`; of the address ranges those that are in use -/
structure AclFilterRule where
  allowFlag : Bool
  methodRestrictionEnabled : Bool
  standardMethodLookup : Fin HTTP_WKSIDX_METHODS_CNT → Bool
  nonstandardMethods : Finset (List UInt8)
  srcIpValid : Bool
  srcIpArray : List SrcIpInfo
  inIpValid : Bool
  inIpArray : List SrcIpInfo
  internal : Bool

/-- what the filter reads of a request -/
structure Request where
  /-- `method_get_wksidx()`: -1 if the method is not a well-known string -/
  methodWksIdx : ℤ
  /-- `method_get()` -/
  method : List UInt8
  srcAddr : IpAddr
  /-- `get_local_addr()` of the connection of the client -/
  localAddr : IpAddr
  internal : Bool

/-- the flags in `HttpTransact::State` -/
structure State where
  aclFilteringPerformed : Bool
  clientConnectionEnabled : Bool
deriving DecidableEq

/-! ## The filter -/

/-- `method_wksidx` -/
def Request.methodWksidx (req : Request) : ℤ := if req.methodWksIdx ≠ -1 then req.methodWksIdx - HTTP_WKSIDX_CONNECT else -1

/-- the standard method that the request has -/
def Request.standardMethod (req : Request) : Option (Fin HTTP_WKSIDX_METHODS_CNT) :=
  if h : 0 ≤ req.methodWksidx ∧ req.methodWksidx < HTTP_WKSIDX_METHODS_CNT then some ⟨req.methodWksidx.toNat, by omega⟩ else none

/-- the loops over the ranges, which end when there is a match -/
def rangeLoop (ip : IpAddr) : List SrcIpInfo → Bool → Bool
  | [], isMatch => isMatch
  | info :: l, isMatch =>
    if isMatch then isMatch
    else
      let inRange := info.contains ip
      if info.invert then rangeLoop ip l (if !inRange then true else isMatch)
      else rangeLoop ip l (if inRange then true else isMatch)

namespace AclFilterRule

/-- `match` behind the test of the method -/
def matchMethod (rp : AclFilterRule) (req : Request) : Bool :=
  if rp.methodRestrictionEnabled then
    match req.standardMethod with
    | some method => rp.standardMethodLookup method
    | none =>
      if rp.nonstandardMethods ≠ ∅ then false
      else decide (req.method ∈ rp.nonstandardMethods)
  else true

/-- `match` behind all tests -/
def isMatch (rp : AclFilterRule) (req : Request) : Bool :=
  let isMatch := rp.matchMethod req
  let isMatch := if isMatch && rp.srcIpValid then rangeLoop req.srcAddr rp.srcIpArray false else isMatch
  let isMatch := if isMatch && rp.inIpValid then rangeLoop req.localAddr rp.inIpArray false else isMatch
  if rp.internal then req.internal else isMatch

/-- `client_enabled_flag` behind the rule -/
def enabledBehind (rp : AclFilterRule) (req : Request) (clientEnabledFlag : Bool) : Bool :=
  if rp.isMatch req && clientEnabledFlag then (if rp.allowFlag then true else false)
  else if !clientEnabledFlag then clientEnabledFlag
  else if rp.allowFlag then false else true

end AclFilterRule

/-- the loop over the rules: the flag at its end, and the rules that were evaluated -/
def filterLoop (req : Request) : List AclFilterRule → Bool → Bool × List AclFilterRule
  | [], clientEnabledFlag => (clientEnabledFlag, [])
  | rp :: l, clientEnabledFlag =>
    if clientEnabledFlag then
      let (flag, evaluated) := filterLoop req l (rp.enabledBehind req clientEnabledFlag)
      (flag, rp :: evaluated)
    else (clientEnabledFlag, [])

/-- `PerformACLFiltering`, and the rules that it evaluates; `none` is the assertion on the address of the client -/
def performACLFiltering (s : State) (req : Request) (filter : List AclFilterRule) : Option (State × List AclFilterRule) :=
  if s.aclFilteringPerformed || !s.clientConnectionEnabled then some (s, [])
  else if filter = [] then some ({ s with aclFilteringPerformed := true }, [])
  else if req.srcAddr.isIp then
    let (clientEnabledFlag, evaluated) := filterLoop req filter true
    some ({ aclFilteringPerformed := true, clientConnectionEnabled := clientEnabledFlag }, evaluated)
  else none

/-! ## What the rules mean -/

/-- the method of the request is one of those that the rule lists -/
def AclFilterRule.Lists (rp : AclFilterRule) (req : Request) : Prop :=
  match req.standardMethod with
  | some method => rp.standardMethodLookup method = true
  | none => req.method ∈ rp.nonstandardMethods

/-- the address is in one of the ranges; an inverted range is what is outside of it -/
def InOne (ip : IpAddr) (ranges : List SrcIpInfo) : Prop := ∃ info ∈ ranges, (info.contains ip = true ↔ info.invert = false)

/-- the restrictions of a rule but the one to internal requests -/
structure AclFilterRule.Fits (rp : AclFilterRule) (req : Request) : Prop where
  method : rp.methodRestrictionEnabled = true → rp.Lists req
  srcIp : rp.srcIpValid = true → InOne req.srcAddr rp.srcIpArray
  inIp : rp.inIpValid = true → InOne req.localAddr rp.inIpArray

/-- all restrictions that the rule carries hold -/
structure AclFilterRule.Matches (rp : AclFilterRule) (req : Request) : Prop extends rp.Fits req where
  internal : rp.internal = true → req.internal = true

/-- an allow rule that matches or a deny rule that does not -/
def AclFilterRule.Agrees (rp : AclFilterRule) (req : Request) : Prop := rp.allowFlag = true ↔ rp.Matches req

/-- The request is internal and another restriction of an internal rule does not hold; or the other restrictions of a rule hold for a request
whose method is listed, but not a standard one. -/
def AclFilterRule.Slips (rp : AclFilterRule) (req : Request) : Prop :=
  if rp.internal then req.internal = true ∧ ¬ rp.Fits req
  else rp.methodRestrictionEnabled = true ∧ req.standardMethod = none ∧ rp.Fits req

/-- The first rule that slips comes behind rules that agree, and it agrees itself or makes that the client stays enabled. -/
def Misjudged (req : Request) (filter : List AclFilterRule) : Prop :=
  ∃ before rp after, filter = before ++ rp :: after ∧ (∀ q ∈ before, q.Agrees req ∧ ¬ q.Slips req) ∧ rp.Slips req ∧
    (rp.Agrees req ∨ ∀ q ∈ after, q.Agrees req ↔ ¬ q.Slips req)

/-! ## The flag -/

variable {rp : AclFilterRule} {req : Request}

theorem rangeLoop_iff (ip : IpAddr) (ranges : List SrcIpInfo) (isMatch : Bool) :
    rangeLoop ip ranges isMatch = true ↔ isMatch = true ∨ InOne ip ranges := by
  induction ranges generalizing isMatch with
  | nil => simp [rangeLoop, InOne]
  | cons info l ih =>
    have hcons : InOne ip (info :: l) ↔ (info.contains ip = true ↔ info.invert = false) ∨ InOne ip l := by simp [InOne]
    rw [rangeLoop, hcons]
    cases isMatch with
    | true => simp
    | false =>
      rw [if_neg Bool.false_ne_true]
      dsimp only
      split_ifs <;> rw [ih] <;> simp_all

theorem matchMethod_iff : rp.matchMethod req = true ↔
    (rp.methodRestrictionEnabled = true → rp.Lists req) ∧ ¬ (rp.methodRestrictionEnabled = true ∧ req.standardMethod = none) := by
  unfold AclFilterRule.matchMethod AclFilterRule.Lists
  by_cases hm : rp.methodRestrictionEnabled = true
  · rw [if_pos hm]
    cases hstd : req.standardMethod with
    | some method => simp [hm]
    | none =>
      dsimp only
      split_ifs with hempty
      · simp [hm]
      · rw [not_not] at hempty
        simp [hm, hempty]
  · rw [if_neg hm]
    simp [hm]

/-- a flag that a restriction is added to -/
theorem restrict_iff {valid isMatch : Bool} {ip : IpAddr} {ranges : List SrcIpInfo} :
    (if isMatch && valid then rangeLoop ip ranges false else isMatch) = true ↔ isMatch = true ∧ (valid = true → InOne ip ranges) := by
  split_ifs with h
  · rw [Bool.and_eq_true] at h
    rw [rangeLoop_iff]
    simp [h]
  · cases isMatch <;> simp_all

theorem isMatch_iff : rp.isMatch req = true ↔
    if rp.internal then req.internal = true
    else rp.Fits req ∧ ¬ (rp.methodRestrictionEnabled = true ∧ req.standardMethod = none) := by
  unfold AclFilterRule.isMatch
  dsimp only
  by_cases hinternal : rp.internal = true
  · rw [if_pos hinternal, if_pos hinternal]
  · rw [if_neg hinternal, if_neg hinternal, restrict_iff, restrict_iff, matchMethod_iff]
    constructor
    · rintro ⟨⟨⟨hmethod, hstd⟩, hsrc⟩, hin⟩
      exact ⟨⟨hmethod, hsrc, hin⟩, hstd⟩
    · rintro ⟨h, hstd⟩
      exact ⟨⟨⟨h.method, hstd⟩, h.srcIp⟩, h.inIp⟩

theorem matches_iff : rp.Matches req ↔ rp.Fits req ∧ (rp.internal = true → req.internal = true) :=
  ⟨fun h => ⟨h.toFits, h.internal⟩, fun h => ⟨h.1, h.2⟩⟩

/-- the flag is wrong exactly for the rules that slip -/
theorem isMatch_iff_matches : rp.isMatch req = true ↔ (rp.Matches req ↔ ¬ rp.Slips req) := by
  rw [isMatch_iff, matches_iff, AclFilterRule.Slips]
  split_ifs <;> tauto

theorem enabledBehind_iff : rp.enabledBehind req true = true ↔ (rp.Agrees req ↔ ¬ rp.Slips req) := by
  have hflag : rp.enabledBehind req true = true ↔ (rp.allowFlag = true ↔ rp.isMatch req = true) := by
    unfold AclFilterRule.enabledBehind
    cases rp.isMatch req <;> cases rp.allowFlag <;> simp
  rw [hflag, isMatch_iff_matches, AclFilterRule.Agrees]
  tauto

/-! ## The loop -/

theorem filterLoop_disabled (req : Request) (l : List AclFilterRule) : filterLoop req l false = (false, []) := by
  cases l <;> rfl

theorem filterLoop_cons (req : Request) (rp : AclFilterRule) (l : List AclFilterRule) : filterLoop req (rp :: l) true =
    ((filterLoop req l (rp.enabledBehind req true)).1, rp :: (filterLoop req l (rp.enabledBehind req true)).2) := rfl

theorem filterLoop_enabled_iff (l : List AclFilterRule) :
    (filterLoop req l true).1 = true ↔ ∀ q ∈ l, q.Agrees req ↔ ¬ q.Slips req := by
  induction l with
  | nil => simp [filterLoop]
  | cons rp l ih =>
    rw [filterLoop_cons, List.forall_mem_cons, ← enabledBehind_iff]
    cases rp.enabledBehind req true with
    | true => simpa using ih
    | false => simp [filterLoop_disabled]

theorem misjudged_cons {l : List AclFilterRule} : Misjudged req (rp :: l) ↔
    (rp.Slips req ∧ (rp.Agrees req ∨ ∀ q ∈ l, q.Agrees req ↔ ¬ q.Slips req)) ∨ ((rp.Agrees req ∧ ¬ rp.Slips req) ∧ Misjudged req l) := by
  constructor
  · rintro ⟨before, q, after, heq, hbefore, hslip, h⟩
    cases before with
    | nil =>
      obtain ⟨rfl, rfl⟩ := List.cons.inj heq
      exact Or.inl ⟨hslip, h⟩
    | cons b before =>
      obtain ⟨rfl, rfl⟩ := List.cons.inj heq
      obtain ⟨hb, hbefore⟩ := List.forall_mem_cons.mp hbefore
      exact Or.inr ⟨hb, before, q, after, rfl, hbefore, hslip, h⟩
  · rintro (⟨hslip, h⟩ | ⟨hb, before, q, after, rfl, hbefore, hslip, h⟩)
    · exact ⟨[], rp, l, rfl, fun q hq => absurd hq List.not_mem_nil, hslip, h⟩
    · exact ⟨rp :: before, q, after, rfl, List.forall_mem_cons.mpr ⟨hb, hbefore⟩, hslip, h⟩

/-- the loop is right about the rules that it evaluates -/
theorem filterLoop_right_iff (l : List AclFilterRule) :
    ((filterLoop req l true).1 = true ↔ ∀ q ∈ (filterLoop req l true).2, q.Agrees req) ↔ ¬ Misjudged req l := by
  induction l with
  | nil =>
    refine iff_of_true (by simp [filterLoop]) ?_
    rintro ⟨before, q, after, heq, -⟩
    simp at heq
  | cons rp l ih =>
    rw [filterLoop_cons, misjudged_cons, ← filterLoop_enabled_iff, List.forall_mem_cons]
    have hbehind : rp.enabledBehind req true = true ↔ (rp.Agrees req ↔ ¬ rp.Slips req) := enabledBehind_iff
    cases hflag : rp.enabledBehind req true with
    | true =>
      have hagrees : rp.Agrees req ↔ ¬ rp.Slips req := hbehind.mp hflag
      dsimp only
      tauto
    | false =>
      have hnot : ¬ (rp.Agrees req ↔ ¬ rp.Slips req) := fun h => Bool.false_ne_true (hflag.symm.trans (hbehind.mpr h))
      rw [filterLoop_disabled]
      simp only [Bool.false_eq_true, List.not_mem_nil, IsEmpty.forall_iff, implies_true, and_true]
      tauto

/-- the client stays enabled exactly if every rule that is evaluated agrees -/
def DecidesRight (s : State) (req : Request) (filter : List AclFilterRule) : Prop :=
  ∃ s' evaluated, performACLFiltering s req filter = some (s', evaluated) ∧
    (s'.clientConnectionEnabled = true ↔ s.clientConnectionEnabled = true ∧ ∀ rp ∈ evaluated, rp.Agrees req)

theorem acl_decision_iff {s : State} {req : Request} {filter : List AclFilterRule} (hip : req.srcAddr.isIp = true) :
    DecidesRight s req filter ↔ (s.aclFilteringPerformed = false → s.clientConnectionEnabled = true → ¬ Misjudged req filter) := by
  unfold DecidesRight performACLFiltering
  by_cases hearly : (s.aclFilteringPerformed || !s.clientConnectionEnabled) = true
  · rw [if_pos hearly]
    refine iff_of_true ⟨s, [], rfl, by simp⟩ fun hperformed henabled => ?_
    rw [hperformed, henabled] at hearly
    cases hearly
  · rw [if_neg hearly]
    obtain ⟨hperformed, henabled⟩ : s.aclFilteringPerformed = false ∧ s.clientConnectionEnabled = true := by simpa using hearly
    simp only [hperformed, henabled, forall_const, true_and]
    by_cases hnil : filter = []
    · rw [if_pos hnil, hnil, ← filterLoop_right_iff]
      exact iff_of_true ⟨_, [], rfl, by simp⟩ (by simp [filterLoop])
    · rw [if_neg hnil, if_pos hip, ← filterLoop_right_iff]
      constructor
      · rintro ⟨s', evaluated, heq, h⟩
        obtain ⟨rfl, rfl⟩ := Prod.mk.inj (Option.some.inj heq)
        exact h
      · exact fun h => ⟨_, _, rfl, h⟩

/-- a deny rule, with methods and with a range of addresses -/
def denyRule (methods : Finset (List UInt8)) (ranges : List SrcIpInfo) : AclFilterRule :=
  ⟨false, methods ≠ ∅, fun _ => false, methods, ranges ≠ [], ranges, false, [], false⟩

def fromInside (method : List UInt8) : Request := ⟨-1, method, .ip4 0x0A000001, .ip4 0x7F000001, false⟩

theorem inside_denied : DecidesRight ⟨false, true⟩ (fromInside (text "FOO")) [denyRule ∅ [⟨.ip4 0x0A000000, .ip4 0x0AFFFFFF, false⟩]] := by
  refine (acl_decision_iff rfl).mpr fun _ _ => ?_
  rintro ⟨before, rp, after, heq, -, hslip, -⟩
  have hrp : rp ∈ [denyRule ∅ [⟨.ip4 0x0A000000, .ip4 0x0AFFFFFF, false⟩]] := by
    rw [heq]
    exact List.mem_append_right before List.mem_cons_self
  rw [List.mem_singleton.mp hrp] at hslip
  exact absurd hslip.1 (by decide)

/-- the request has the method that is denied, and the client stays enabled -/
theorem method_not_denied : ¬ DecidesRight ⟨false, true⟩ (fromInside (text "FOO")) [denyRule {text "FOO"} []] := by
  rintro ⟨s', evaluated, heq, h⟩
  have hflag : (denyRule {text "FOO"} []).isMatch (fromInside (text "FOO")) = false := by decide
  have hbehind : (denyRule {text "FOO"} []).enabledBehind (fromInside (text "FOO")) true = true := by
    rw [AclFilterRule.enabledBehind, hflag]
    rfl
  have hresult : performACLFiltering ⟨false, true⟩ (fromInside (text "FOO")) [denyRule {text "FOO"} []] =
      some (⟨true, true⟩, [denyRule {text "FOO"} []]) := by
    rw [performACLFiltering, if_neg (by decide), if_neg (List.cons_ne_nil _ _), if_pos (by decide), filterLoop_cons, hbehind]
    rfl
  obtain ⟨rfl, rfl⟩ := Prod.mk.inj (Option.some.inj (hresult.symm.trans heq))
  have hagrees := (h.mp rfl).2 _ List.mem_cons_self
  have hmatches : (denyRule {text "FOO"} []).Matches (fromInside (text "FOO")) := by
    refine ⟨⟨fun _ => ?_, fun hvalid => absurd hvalid (by decide), nofun⟩, nofun⟩
    exact Finset.mem_singleton_self _
  exact absurd (hagrees.mpr hmatches) (by decide)

end TrafficServer.Http.Acl
