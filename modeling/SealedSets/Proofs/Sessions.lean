import SealedSets.Proofs.Readings
import SealedSets.Session

/-!
# Answers without codes

A session that makes sets of known values, asks for members and compares sets gives the same
answers whatever objects had codes when it began, and in whatever order they got them. Only the
hash codes and the slots of its sets may differ.
-/
namespace SealedSets

section Answers

variable {describe : ℕ → Option Text} {made made' : List (SealedSet Rule Value)}
  {c : IdentityCodes} {s t : SealedSet Rule Value} {v w : Value}

/-- Whether a value is a member of a set, by comparisons alone. -/
def member (s : SealedSet Rule Value) (v : Value) : Bool :=
  v.present?.any fun x => s.elements.any fun y => y.alike s.ruleOf x

/-- Whether a value is a set with the elements of this one, by comparisons alone. -/
def sameSet (s : SealedSet Rule Value) : Value → Bool
  | .set t => (Value.set s).alike .natural (.set t)
  | _ => false

theorem member_outline (s : SealedSet Rule Value) (v : Value) :
    member (s.outline Value.outline) v.outline = member s v := by
  unfold member
  rw [Value.present?_outline, SealedSet.elements_outline, SealedSet.ruleOf_outline]
  cases v.present? with
  | none => rfl
  | some x => simp [Function.comp_def, Value.alike_outline]

theorem sameSet_outline (s : SealedSet Rule Value) (v : Value) :
    sameSet (s.outline Value.outline) v.outline = sameSet s v := by
  cases v with
  | set t => simpa [sameSet] using Value.alike_outline (.set s) .natural (.set t)
  | _ => rfl

theorem keeps_contains {P : IdentityCodes → Prop} (hP : IdentityCodes.Lasting P)
    (s : SealedSet Rule Value) (v : Option Value) : Keeps P ((Step.ruled s).contains v) := by
  have hrule : ∀ E, (Step.ruled s).rule? = some E → E.Keeps P := by
    intro E hE
    obtain ⟨rule, -, rfl⟩ := SealedSet.rule?_mapRule_eq_some.mp hE
    exact rule.keeps hP
  exact SealedSet.keeps_contains (fun E hE => (hrule E hE).accepts) (fun E hE => (hrule E hE).hash)
    (fun E hE x _ => (hrule E hE).equal x) v

theorem grows_contains (s : SealedSet Rule Value) (v : Option Value) :
    ((Step.ruled s).contains v).Grows :=
  Action.grows_iff.mpr fun b => keeps_contains (IdentityCodes.lasting_le b) s v

theorem contains_always (h : History describe made c) (hs : s ∈ made)
    (hv : Readable describe made v) :
    ((Step.ruled s).contains v.present?).Always c (member s v) := by
  unfold member
  cases hpresent : v.present? with
  | none => exact Action.always_pure c false
  | some x =>
      have hx := hv x hpresent
      have hrule := h.nested.standard s hs
      have hproper := h.nested.proper s hs
      have hlaw := h.nested.law s.ruleOf hrule
      have haccepts : (s.ruleOf.equivalence.accepts x).Always c true := hlaw.accepts x hx
      simpa [Step.ruled] using
        hproper.sound.contains_always hlaw.toSteady hproper.mem hx haccepts

theorem keeps_equals {P : IdentityCodes → Prop} (hP : IdentityCodes.Lasting P)
    (s : SealedSet Rule Value) (v : Value) : Keeps P (Step.equals s v) := by
  cases v with
  | set t =>
      have hkeeps := (Rule.natural.keeps hP).equal (.set s) (.set t)
      rwa [Rule.natural_equal_set] at hkeeps
  | _ => exact .pure false

theorem grows_equals (s : SealedSet Rule Value) (v : Value) : (Step.equals s v).Grows :=
  Action.grows_iff.mpr fun b => keeps_equals (IdentityCodes.lasting_le b) s v

theorem equals_always (h : History describe made c) (hs : s ∈ made)
    (hv : Readable describe made v) :
    (Step.equals s v).Always c (sameSet s v) := by
  cases v with
  | set t =>
      have ht : t ∈ made := mem_of_set_known (hv _ rfl)
      have hequal := h.nested.equal_set_always hs ht
      rwa [Rule.natural_equal_set] at hequal
  | _ => exact Action.always_pure c false

end Answers

/-- What a session knows of its history. -/
structure Session.Grounded (describe : ℕ → Option Text) (made : List (SealedSet Rule Value))
    (s : Session) : Prop where
  history : History describe made s.codes
  fresh : ∀ x ∈ made, ∀ n, x.ref = .set n → n < s.made

/-- Two sessions with the same bindings, up to outlines, and with histories of their own. -/
structure Session.Twins (describe : ℕ → Option Text) (made made' : List (SealedSet Rule Value))
    (s t : Session) : Prop where
  bindings : s.toBindings.Twins describe made made' t.toBindings
  checked : s.checked = t.checked
  count : s.made = t.made
  left : s.Grounded describe made
  right : t.Grounded describe made'

def Session.Paired (describe : ℕ → Option Text) (s t : Session) : Prop :=
  ∃ made made', s.Twins describe made made' t

namespace Session

variable {describe : ℕ → Option Text} {made made' : List (SealedSet Rule Value)} {s t : Session}
  {c d : IdentityCodes}

theorem Grounded.wait (h : s.Grounded describe made) (hc : s.codes ≤ c) :
    ({ s with codes := c } : Session).Grounded describe made where
  history := h.history.wait hc
  fresh := h.fresh

theorem Twins.wait (h : s.Twins describe made made' t) (hc : s.codes ≤ c) (hd : t.codes ≤ d) :
    ({ s with codes := c } : Session).Twins describe made made' { t with codes := d } where
  bindings := h.bindings
  checked := h.checked
  count := h.count
  left := h.left.wait hc
  right := h.right.wait hd

theorem Twins.rebind {b b' : Bindings} (h : s.Twins describe made made' t)
    (hb : b.Twins describe made made' b') :
    ({ s with toBindings := b } : Session).Twins describe made made'
      { t with toBindings := b' } where
  bindings := hb
  checked := h.checked
  count := h.count
  left := ⟨h.left.history, h.left.fresh⟩
  right := ⟨h.right.history, h.right.fresh⟩

/-- A set that is made gets the next number, if it has elements. -/
theorem Grounded.make {rule : Rule} {candidates : List Value} {expected : Option Binary64}
    {x : SealedSet Rule Value} {sets : List (String × SealedSet Rule Value)}
    (h : s.Grounded describe made) (hrule : rule.Standard)
    (hmem : ∀ v ∈ candidates, Readable describe made v)
    (hx : SealedSet.ofCandidates s.checked Rule.equivalence rule (.set s.made) expected
      (candidates.map Value.present?) s.codes = .ok x c) :
    ({ s with codes := c, made := s.made + 1, sets := sets } : Session).Grounded describe
      (made ++ [x]) where
  history := by
    refine h.history.make hrule (fun w hw => ?_) (fun y hy hn => ?_) hx
    · obtain ⟨v, hv, hvw⟩ := List.mem_map.mp hw
      exact hmem v hv w hvw
    · exact absurd (h.fresh y hy s.made hn) (lt_irrefl _)
  fresh y hy n hn := by
    rcases List.mem_append.mp hy with hy | hy
    · exact (h.fresh y hy n hn).trans (Nat.lt_succ_self _)
    · obtain rfl := List.mem_singleton.mp hy
      obtain ⟨-, rfl⟩ | ⟨-, -, href⟩ := SealedSet.ofCandidates_shape hx
      · cases hn
      · rw [href, Ref.set.injEq] at hn
        exact hn ▸ Nat.lt_succ_self _

theorem Twins.paired (h : s.Twins describe made made' t) : s.Paired describe t := ⟨made, made', h⟩

end Session

section Steps

variable {describe : ℕ → Option Text} {made made' : List (SealedSet Rule Value)} {α β : Type}

theorem Coupled.read {R : α → β → Prop} {r : Reading α} {r' : Reading β}
    (h : Coupled (Bindings.Twins describe made made') (Bindings.Twins describe made made') R r r') :
    Coupled (Session.Twins describe made made') (Session.Twins describe made made') R (Step.read r)
      (Step.read r') := by
  intro s t hst
  have hend := h s.toBindings t.toBindings hst.bindings
  unfold Step.read
  revert hend
  cases r s.toBindings <;> cases r' t.toBindings
  · exact fun h => ⟨h.1, hst.rebind h.2⟩
  · exact False.elim
  · exact False.elim
  · exact fun h => ⟨h.1, hst.rebind h.2⟩

/-- Actions that always answer alike. -/
theorem Coupled.act {a b : Action α} {x : α} (ha : a.Grows) (hb : b.Grows)
    (hax : ∀ c, History describe made c → a.Always c x)
    (hbx : ∀ c, History describe made' c → b.Always c x) :
    Coupled (Session.Twins describe made made') (Session.Twins describe made made') Eq (Step.act a)
      (Step.act b) := by
  intro s t hst
  obtain ⟨c, hc⟩ := hax s.codes hst.left.history s.codes le_rfl
  obtain ⟨d, hd⟩ := hbx t.codes hst.right.history t.codes le_rfl
  unfold Step.act
  rw [hc, hd]
  exact ⟨rfl, hst.wait (ha.le hc) (hb.le hd)⟩

theorem set_coupled (name : String) :
    Coupled (Session.Twins describe made made') (Session.Twins describe made made')
      (SealedSet.Twins made made') (Step.set name) (Step.set name) :=
  Coupled.get.bindSame fun _ _ hst => Coupled.lift (agree_lookUp hst.bindings.sets name)

theorem operand_coupled {x : Operand} (h : x.Plain describe) :
    Coupled (Session.Twins describe made made') (Session.Twins describe made made')
      (Value.Twins describe made made') (Step.operand x) (Step.operand x) :=
  Coupled.read (Operand.read_coupled h)

/-- What is left of an answer without hash codes and slots. -/
def Answer.outline : Answer → Answer
  | summary s brief => summary (s.outline Value.outline) brief
  | answer => answer

theorem boolean_coupled {P : Session → Session → Prop} {a b : Step Bool} (h : Coupled P P Eq a b) :
    Coupled P P (fun x y => Answer.outline x = Answer.outline y) (Step.boolean a)
      (Step.boolean b) := by
  unfold Step.boolean
  refine h.bindSame fun x y hxy => ?_
  subst hxy
  exact Coupled.pure rfl

theorem contains_coupled (name : String) {x : Operand} (h : x.Plain describe) :
    Coupled (Session.Twins describe made made') (Session.Twins describe made made')
      (fun x y => Answer.outline x = Answer.outline y) (Step.answer (.contains name x))
      (Step.answer (.contains name x)) := by
  rw [Step.answer]
  refine boolean_coupled ((set_coupled name).bindSame fun s t hst =>
    (operand_coupled h).bindSame fun v w hvw => ?_)
  have hmember : member t w = member s v := by
    rw [← member_outline s, ← member_outline t, hst.outline, hvw.outline]
  exact Coupled.act (grows_contains s _) (grows_contains t _)
    (fun c hc => contains_always hc hst.left hvw.left)
    (fun c hc => hmember ▸ contains_always hc hst.right hvw.right)

theorem equals_coupled (name : String) {x : Operand} (h : x.Plain describe) :
    Coupled (Session.Twins describe made made') (Session.Twins describe made made')
      (fun x y => Answer.outline x = Answer.outline y) (Step.answer (.equals name x))
      (Step.answer (.equals name x)) := by
  rw [Step.answer]
  refine boolean_coupled ((set_coupled name).bindSame fun s t hst =>
    (operand_coupled h).bindSame fun v w hvw => ?_)
  have hsame : sameSet t w = sameSet s v := by
    rw [← sameSet_outline s, ← sameSet_outline t, hst.outline, hvw.outline]
  exact Coupled.act (grows_equals s v) (grows_equals t w)
    (fun c hc => equals_always hc hst.left hvw.left)
    (fun c hc => hsame ▸ equals_always hc hst.right hvw.right)

/-- What is left to do once the candidates and the expectation are there. -/
def Step.finish (name : String) (rule : Rule) (brief : Bool) (candidates : List Value)
    (expected : Option Binary64) : Step Answer := do
  let session ← get
  let s ← act (SealedSet.ofCandidates session.checked Rule.equivalence rule (.set session.made)
    expected (candidates.map Value.present?))
  modify fun session => { session with made := session.made + 1 }
  bindSet name s
  return .summary s brief

theorem make_eq (name : String) (source : Source) (rule : Rule) (expected : Operand)
    (brief : Bool) :
    Step.make name source rule expected brief = (do
      let supply ← Step.supply source
      let expected ← Step.operand expected
      let candidates ← supply.all
      (if candidates.isEmpty then pure none else liftM expected.expected?) >>=
        Step.finish name rule brief candidates) := by
  unfold Step.make
  refine bind_congr fun supply => bind_congr fun expected => bind_congr fun candidates => ?_
  split <;> rfl

theorem finish_eq (name : String) (rule : Rule) (brief : Bool) (candidates : List Value)
    (expected : Option Binary64) (s : Session) :
    Step.finish name rule brief candidates expected s =
      match SealedSet.ofCandidates s.checked Rule.equivalence rule (.set s.made) expected
        (candidates.map Value.present?) s.codes with
      | .ok x c =>
        .ok (.summary x brief)
          { s with codes := c, made := s.made + 1, sets := assign name x s.sets }
      | .error failure c => .error failure { s with codes := c } := by
  change EStateM.bind (Step.act (SealedSet.ofCandidates s.checked Rule.equivalence rule
    (.set s.made) expected (candidates.map Value.present?))) _ s = _
  unfold EStateM.bind Step.act
  cases SealedSet.ofCandidates s.checked Rule.equivalence rule (.set s.made) expected
    (candidates.map Value.present?) s.codes <;> rfl

theorem ends_of_history {c : IdentityCodes} {rule : Rule} {candidates : List Value}
    (h : History describe made c) (hrule : rule.Standard)
    (hmem : ∀ v ∈ candidates, Readable describe made v) (checked : Bool) (ref : Ref)
    (expected : Option Binary64) :
    (SealedSet.ofCandidates checked Rule.equivalence rule ref expected
        (candidates.map Value.present?)).Ends c (SealedSet.outline id)
      (SealedSet.outcome checked (fun x y => x.alike rule y) rule ref expected
        (candidates.map Value.present?)) := by
  refine SealedSet.ofCandidates_ends (h.nested.law rule hrule).toSteady fun w hw => ?_
  obtain ⟨v, hv, hvw⟩ := List.mem_map.mp hw
  exact hmem v hv w hvw

/-- What becomes of candidates depends on their outlines. -/
theorem outcome_eq_of_outline {vs ws : List Value} (h : vs.map Value.outline = ws.map Value.outline)
    (checked : Bool) (rule : Rule) (ref : Ref) (expected : Option Binary64) :
    SealedSet.outline Value.outline <$> SealedSet.outcome checked (fun x y => x.alike rule y) rule
        ref expected (vs.map Value.present?) =
      SealedSet.outline Value.outline <$> SealedSet.outcome checked (fun x y => x.alike rule y) rule
        ref expected (ws.map Value.present?) := by
  have hpresent (us : List Value) : (us.map Value.present?).map (Option.map Value.outline) =
      (us.map Value.outline).map Value.present? := by
    simp [Function.comp_def]
  have hmap (us : List Value) : SealedSet.outcome checked (fun x y => x.alike rule y) rule ref
        expected ((us.map Value.present?).map (Option.map Value.outline)) =
      SealedSet.outline Value.outline <$> SealedSet.outcome checked (fun x y => x.alike rule y) rule
        ref expected (us.map Value.present?) :=
    SealedSet.outcome_map (fun x y => x.alike_outline rule y) checked rule ref expected _
  rw [← hmap, ← hmap, hpresent, hpresent, h]

theorem finish_coupled (name : String) {rule : Rule} (hrule : rule.Standard) (brief : Bool)
    (expected : Option Binary64) {vs ws : List Value}
    (hvw : List.Forall₂ (Value.Twins describe made made') vs ws) :
    Coupled (Session.Twins describe made made') (Session.Paired describe)
      (fun x y => Answer.outline x = Answer.outline y)
      (Step.finish name rule brief vs expected) (Step.finish name rule brief ws expected) := by
  intro s t hst
  obtain ⟨hvs, hws⟩ := readable_of_twins hvw
  obtain ⟨c, hc, hleft⟩ :=
    ends_of_history hst.left.history hrule hvs s.checked (.set s.made) expected
  obtain ⟨d, hd, hright⟩ :=
    ends_of_history hst.right.history hrule hws t.checked (.set t.made) expected
  have houtcome : SealedSet.outline Value.outline <$> SealedSet.outcome s.checked
        (fun x y => x.alike rule y) rule (.set s.made) expected (vs.map Value.present?) =
      SealedSet.outline Value.outline <$> SealedSet.outcome t.checked
        (fun x y => x.alike rule y) rule (.set t.made) expected (ws.map Value.present?) := by
    rw [hst.checked, hst.count]
    exact outcome_eq_of_outline (map_outline_eq hvw) t.checked rule (.set t.made) expected
  rw [finish_eq, finish_eq]
  revert hleft hright houtcome
  cases SealedSet.outcome s.checked (fun x y => x.alike rule y) rule (.set s.made) expected
      (vs.map Value.present?) <;>
    cases SealedSet.outcome t.checked (fun x y => x.alike rule y) rule (.set t.made) expected
      (ws.map Value.present?)
  · rintro hleft hright houtcome
    rw [hleft, hright]
    exact ⟨Except.error.inj houtcome, (hst.wait hc hd).paired⟩
  · exact fun _ _ houtcome => nomatch houtcome
  · exact fun _ _ houtcome => nomatch houtcome
  · rintro ⟨x, hx, rfl⟩ ⟨y, hy, rfl⟩ houtcome
    have houtline : x.outline Value.outline = y.outline Value.outline := by
      simpa using Except.ok.inj houtcome
    rw [hx, hy]
    exact ⟨congrArg (Answer.summary · brief) houtline, made ++ [x], made' ++ [y],
      { bindings := hst.bindings.assign name houtline
        checked := hst.checked
        count := congrArg (· + 1) hst.count
        left := hst.left.make hrule hvs hx
        right := hst.right.make hrule hws hy }⟩

theorem make_coupled (name : String) {source : Source} {rule : Rule} (v : Value) (brief : Bool)
    (hsource : source.Plain describe) (hrule : rule.Standard) :
    Coupled (Session.Twins describe made made') (Session.Paired describe)
      (fun x y => Answer.outline x = Answer.outline y)
      (Step.answer (.make name source rule (.value v) brief))
      (Step.answer (.make name source rule (.value v) brief)) := by
  intro s t hst
  have closed : Closed describe made := fun x hx => hst.left.history.nested.mem hx
  have closed' : Closed describe made' := fun x hx => hst.right.history.nested.mem hx
  have hpair : ∀ s t : Session, s.Twins describe made made' t → s.Paired describe t :=
    fun _ _ h => h.paired
  rw [Step.answer, make_eq]
  refine (Coupled.read (Source.read_coupled hsource closed closed')).bind hpair
    (fun supply supply' hsupply => ?_) s t hst
  have hv : Coupled (Bindings.Twins describe made made') (Bindings.Twins describe made made')
      (fun x y => x = v ∧ y = v) (Operand.value v).read (Operand.value v).read :=
    Coupled.pure ⟨rfl, rfl⟩
  refine (Coupled.read hv).bind hpair fun x y hxy => ?_
  obtain ⟨rfl, rfl⟩ := hxy
  refine (Coupled.lift hsupply.agree_all).bind hpair fun vs ws hvw => ?_
  have hempty : vs.isEmpty = ws.isEmpty := by
    cases hvw <;> rfl
  rw [hempty]
  refine Coupled.bind (R := Eq) ?_ hpair fun expected expected' hexpected => ?_
  · split
    · exact Coupled.pure rfl
    · exact Coupled.lift (Agree.refl fun _ _ => rfl)
  · subst hexpected
    exact finish_coupled name hrule brief expected hvw

end Steps

/-- A command that makes a set of known values under a standard rule, asks for a member or compares
two sets. -/
inductive Command.Plain (describe : ℕ → Option Text) : Command → Prop
  | make (name : String) {source : Source} {rule : Rule} (expected : Value) (brief : Bool)
      (hsource : source.Plain describe) (hrule : rule.Standard) :
      Plain describe (.make name source rule (.value expected) brief)
  | contains (set : String) {value : Operand} (h : value.Plain describe) :
      Plain describe (.contains set value)
  | equals (set : String) {other : Operand} (h : other.Plain describe) :
      Plain describe (.equals set other)

namespace Session

variable {describe : ℕ → Option Text} {s t : Session} {command : Command}

theorem Paired.step (h : s.Paired describe t) (plain : command.Plain describe) :
    (s.step command).1.outline = (t.step command).1.outline ∧
      (s.step command).2.Paired describe (t.step command).2 := by
  obtain ⟨made, made', hst⟩ := h
  have hcoupled : Coupled (Session.Twins describe made made') (Session.Paired describe)
      (fun x y => Answer.outline x = Answer.outline y) (Step.answer command)
      (Step.answer command) := by
    have hpair : ∀ s t : Session, s.Twins describe made made' t → s.Paired describe t :=
      fun _ _ h => h.paired
    cases plain with
    | make name expected brief hsource hrule =>
        exact make_coupled name expected brief hsource hrule
    | contains set h =>
        exact (contains_coupled set h).mono (fun _ _ h => h) hpair (fun _ _ h => h)
    | equals set h => exact (equals_coupled set h).mono (fun _ _ h => h) hpair (fun _ _ h => h)
  have hend := hcoupled s t hst
  unfold Session.step
  revert hend
  cases Step.answer command s <;> cases Step.answer command t
  · exact id
  · exact False.elim
  · exact False.elim
  · exact fun h => ⟨congrArg Answer.failed h.1, h.2⟩

theorem Paired.run {commands : List Command} (h : s.Paired describe t)
    (plain : ∀ command ∈ commands, command.Plain describe) :
    (s.run commands).1.map Answer.outline = (t.run commands).1.map Answer.outline ∧
      (s.run commands).2.Paired describe (t.run commands).2 := by
  induction commands generalizing s t with
  | nil => exact ⟨rfl, h⟩
  | cons command commands ih =>
      obtain ⟨hcommand, hcommands⟩ := List.forall_mem_cons.mp plain
      obtain ⟨hanswer, hstep⟩ := h.step hcommand
      obtain ⟨hanswers, hrun⟩ := ih hstep hcommands
      rw [Session.run, Session.run]
      exact ⟨by rw [List.map_cons, List.map_cons, hanswer, hanswers], hrun⟩

theorem paired_start (describe : ℕ → Option Text) (checked : Bool) (c d : IdentityCodes) :
    ({ checked := checked, codes := c } : Session).Paired describe
      { checked := checked, codes := d } :=
  ⟨[], [],
    { bindings := ⟨.nil, .nil, rfl, rfl⟩
      checked := rfl
      count := rfl
      left := ⟨.start c, by simp⟩
      right := ⟨.start d, by simp⟩ }⟩

/-- Which objects have codes when a session begins, and which codes, makes no difference to its
answers and failures, nor to the elements of its sets. -/
theorem run_outline_eq {commands : List Command}
    (plain : ∀ command ∈ commands, command.Plain describe) (checked : Bool) (c d : IdentityCodes) :
    (run commands { checked := checked, codes := c }).1.map Answer.outline =
        (run commands { checked := checked, codes := d }).1.map Answer.outline ∧
      ((run commands { checked := checked, codes := c }).2.sets.map fun p =>
          (p.1, p.2.outline Value.outline)) =
        (run commands { checked := checked, codes := d }).2.sets.map fun p =>
          (p.1, p.2.outline Value.outline) := by
  obtain ⟨hanswers, hpaired⟩ := (paired_start describe checked c d).run plain
  obtain ⟨_, _, htwins⟩ := hpaired
  exact ⟨hanswers, map_outline_eq_of_named htwins.bindings.sets⟩

set_option maxRecDepth 4000 in
/-- The function gets another code, and so the first set another hash code, if an object that is
never mentioned has the first code. -/
theorem run_outline_eq_coded :
    let f : Value := .object (.object 0) (.function "f")
    let commands : List Command := [
      .make "a" (.values [.value f, .named "x" (.value (.number .nan)), .value f]) .identity
        (.value .undefined) false,
      .make "b" (.values [.set "a", .value f]) .natural (.value (.number .zero)) false,
      .contains "b" (.set "a"), .equals "a" (.set "b"), .contains "c" (.value .null)]
    (run commands {}).1.map Answer.outline =
        (run commands { codes := ⟨[.object 1]⟩ }).1.map Answer.outline ∧
      ((run (commands.take 1) {}).2.sets.map fun p => p.2.hashCode) ≠
        (run (commands.take 1) { codes := ⟨[.object 1]⟩ }).2.sets.map fun p => p.2.hashCode := by
  intro f commands
  have hf : f.Flat (fun _ => none) := .object rfl rfl
  have plain : ∀ command ∈ commands, command.Plain fun _ => none := by
    simp only [commands, List.forall_mem_cons]
    refine ⟨.make _ _ _ (.values ?_) .identity, .make _ _ _ (.values ?_) .natural,
      .contains _ (.set _), .equals _ (.set _), .contains _ .null, nofun⟩
    · simpa using ⟨.value hf, .named "x" (.value (.number .nan)), .value hf⟩
    · simpa using ⟨.set "a", .value hf⟩
  refine ⟨(run_outline_eq plain true {} ⟨[.object 1]⟩).1, ?_⟩
  simp only [commands, f]
  decide

end Session
end SealedSets
