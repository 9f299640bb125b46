import SealedSets.Proofs.HashSums
import SealedSets.Proofs.Sessions

/-!
# Identity codes over a session

Whatever a session builds, looks up, compares or hashes, it does nothing to the identity codes but
ask for some. So an object has one code from its first request on, wherever the request comes from,
and the first `2 ^ 32` objects have different codes.
-/
namespace SealedSets

section Identified

variable {v : Value} {ref : Ref} {rule : Rule}

/-- The object whose identity code a value has as its hash code. -/
def Value.identified? : Value → Option Ref
  | object ref shape => if (object ref shape).hasOwnEquality then none else some ref
  | _ => none

/-- The object whose identity code a rule gives to a value as its hash code. -/
def Rule.identified? (v : Value) : Rule → Option Ref
  | custom .. => none
  | identity =>
    match v with
    | .object ref _ => some ref
    | .set s => some s.ref
    | _ => none
  | _ => v.identified?

theorem Value.ownHash_of_identified (h : v.identified? = some ref) :
    v.ownHash = Action.identityCode ref := by
  cases v with
  | object ref' shape =>
      rw [identified?, Option.ite_none_left_eq_some, Option.some.injEq] at h
      obtain ⟨hown, rfl⟩ := h
      cases shape with
      | money currency cents => exact absurd rfl hown
      | scripted script => exact absurd rfl hown
      | record fields => exact if_neg hown
      | _ => rfl
  | _ => cases h

theorem Value.plainHash_of_identified (h : Rule.identity.identified? v = some ref) :
    v.plainHash = Action.identityCode ref := by
  cases v with
  | object ref' shape =>
      obtain rfl : ref' = ref := Option.some.inj h
      rfl
  | set s =>
      obtain rfl : s.ref = ref := Option.some.inj h
      rfl
  | _ => cases h

/-- A hash that is an identity code is asked for like any identity code. -/
theorem Rule.hash_of_identified (h : rule.identified? v = some ref) :
    rule.equivalence.hash v = Action.identityCode ref >>= fun k => pure k.toNumber := by
  have hraw : rule.rawHash v =
      Action.identityCode ref >>= fun k => pure (.number k.toNumber) := by
    cases rule with
    | custom definition scheme => cases h
    | identity => simp only [rawHash, Value.plainHash_of_identified h]
    | _ => simp only [rawHash, Value.ownHash_of_identified h]
  change (rule.rawHash v >>= fun x => liftM x.toNumber) = _
  rw [hraw, bind_assoc]
  rfl

/-- Lookups ask for the hash. -/
theorem Rule.hash_eq_ok (h : rule.identified? v = some ref) (c : IdentityCodes) :
    rule.equivalence.hash v c = .ok (c.request ref).1.toNumber (c.request ref).2 := by
  rw [hash_of_identified h]
  exact Action.bind_of_ok rfl

/-- Elements are stored with the wrapped hash. -/
theorem Rule.code_eq_ok (h : rule.identified? v = some ref) (c : IdentityCodes) :
    rule.equivalence.code v c = .ok (c.request ref).1 (c.request ref).2 := by
  rw [Matching.code, Action.bind_of_ok (rule.hash_eq_ok h c), HashCode.toHashCode_toNumber]
  rfl

/-- From these codes on, every rule that gives a value the identity code of the object gives it this
one, as a number and wrapped, and numbers no object for it. -/
def IdentityCodes.Fixed (c : IdentityCodes) (ref : Ref) (k : HashCode) : Prop :=
  ∀ d, c.LeadsTo d → ∀ (rule : Rule) v, rule.identified? v = some ref →
    rule.equivalence.hash v d = .ok k.toNumber d ∧ rule.equivalence.code v d = .ok k d

theorem IdentityCodes.fixed_request (ref : Ref) (c : IdentityCodes) :
    (c.request ref).2.Fixed ref (c.request ref).1 := by
  intro d hd rule v h
  rw [rule.hash_eq_ok h, rule.code_eq_ok h, request_of_leadsTo hd]
  exact ⟨rfl, rfl⟩

theorem IdentityCodes.fixed_of_mem {c : IdentityCodes} (h : ref ∈ c.requested) :
    c.Fixed ref (c.request ref).1 := by
  have hfixed := fixed_request ref c
  rwa [request_of_mem h] at hfixed

end Identified

namespace Step

variable {α : Type} {P : IdentityCodes → Prop}

/-- What a step keeps of the codes. -/
abbrev KeepsCodes (P : IdentityCodes → Prop) (step : Step α) : Prop :=
  Keeps (fun s : Session => P s.codes) step

theorem keeps_act {a : Action α} (h : Keeps P a) : KeepsCodes P (act a) := by
  intro s hs
  have hcodes := h s.codes hs
  unfold act
  cases ha : a s.codes <;> rw [ha] at hcodes <;> exact hcodes

theorem keeps_read (r : Reading α) : KeepsCodes P (read r) := by
  intro s hs
  unfold read
  cases r s.toBindings <;> exact hs

theorem keeps_modify {g : Session → Session} (h : ∀ s, (g s).codes = s.codes) :
    KeepsCodes P (modify g) :=
  .modify fun s hs => by rwa [h s]

theorem keeps_set (name : String) : KeepsCodes P (set name) := Keeps.get.bind fun _ => .lift _

theorem keeps_array (name : String) : KeepsCodes P (array name) := Keeps.get.bind fun _ => .lift _

theorem keeps_operand (x : Operand) : KeepsCodes P (operand x) := keeps_read x.read

theorem keeps_supply (source : Source) : KeepsCodes P (supply source) := keeps_read source.read

theorem keeps_bindSet (name : String) (s : SealedSet Rule Value) : KeepsCodes P (bindSet name s) :=
  keeps_modify fun _ => rfl

theorem keeps_bindArray (name : String) (a : Slots Value) : KeepsCodes P (bindArray name a) := by
  refine Keeps.bind ?_ fun _ => .pure _
  exact keeps_modify fun _ => rfl

theorem keeps_bindCursor (name : String) (values : List Value) :
    KeepsCodes P (bindCursor name values) :=
  keeps_modify fun _ => rfl

theorem keeps_boolean {test : Step Bool} (h : KeepsCodes P test) : KeepsCodes P (boolean test) :=
  h.bind fun _ => .pure _

theorem keeps_contains (hP : IdentityCodes.Lasting P) (name : String) (x : Operand) :
    KeepsCodes P (do
      let s ← set name
      act ((ruled s).contains (← operand x).present?)) :=
  (keeps_set name).bind fun s => (keeps_operand x).bind fun v =>
    keeps_act (SealedSets.keeps_contains hP s v.present?)

theorem keeps_make (hP : IdentityCodes.Lasting P) (name : String) (source : Source) (rule : Rule)
    (expected : Operand) (brief : Bool) : KeepsCodes P (make name source rule expected brief) := by
  rw [make_eq]
  refine (keeps_supply source).bind fun supply => (keeps_operand expected).bind fun expected =>
    (Keeps.lift _).bind fun candidates => ?_
  refine Keeps.bind ?_ fun expected => Keeps.get.bind fun session => ?_
  · split
    · exact .pure none
    · exact .lift _
  · refine (keeps_act (SealedSet.keeps_ofCandidates (rule.keeps hP))).bind fun s => ?_
    refine Keeps.bind ?_ fun _ => (keeps_bindSet name s).bind fun _ => .pure _
    exact keeps_modify fun _ => rfl

theorem keeps_countMembers (hP : IdentityCodes.Lasting P) (s : SealedSet Rule Value)
    (values : List Value) : KeepsCodes P (countMembers s values) := by
  induction values with
  | nil => exact .pure 0
  | cons v values ih =>
      exact (keeps_act (SealedSets.keeps_contains hP s v.present?)).bind fun member =>
        ih.bind fun count => .pure _

theorem keeps_containsAll (hP : IdentityCodes.Lasting P) (s : SealedSet Rule Value)
    (supply : Supply) : KeepsCodes P (containsAll s supply) := by
  have hleading := SealedSet.keeps_leading (SealedSets.keeps_contains hP s)
    (supply.values.map Value.present?)
  refine (keeps_act hleading).bind fun members => ?_
  split
  · exact .pure _
  · exact (Keeps.lift _).bind fun all => .pure _

theorem keeps_next (cursor : String) : KeepsCodes P (next cursor) := by
  refine Keeps.get.bind fun s => (Keeps.lift _).bind fun values => ?_
  cases values with
  | nil => exact .pure _
  | cons v rest => exact (keeps_bindCursor cursor rest).bind fun _ => .pure _

theorem keeps_writeInto (name array : String) (offset : Operand) :
    KeepsCodes P (writeInto name array offset) := by
  refine (keeps_array array).bind fun a => Keeps.bind (Keeps.tryCatch ?_ fun failure => .pure _)
    fun answered => ?_
  · exact (keeps_set name).bind fun s => Keeps.get.bind fun session =>
      (keeps_operand offset).bind fun x => (keeps_bindArray array _).discard.bind fun _ => .pure _
  · cases answered <;> exact .pure _

/-- One command does nothing to the codes but request some. -/
theorem keeps_answer (hP : IdentityCodes.Lasting P) (command : Command) :
    KeepsCodes P (answer command) := by
  cases command with
  | make name source rule expected brief => exact keeps_make hP name source rule expected brief
  | makeEmpty name => exact (keeps_bindSet name _).bind fun _ => .pure _
  | describe name brief => exact (keeps_set name).bind fun s => .pure _
  | contains name value => exact keeps_boolean (keeps_contains hP name value)
  | containsEach name values =>
      exact (Keeps.mapM (keeps_contains hP name) values).bind fun members => .pure _
  | containsCount name source =>
      exact (keeps_set name).bind fun s => (keeps_supply source).bind fun supply =>
        (keeps_countMembers hP s supply.values).bind fun members =>
          (Keeps.lift supply.all).discard.bind fun _ => .pure _
  | containsAll name source =>
      exact (keeps_set name).bind fun s => (keeps_supply source).bind fun supply =>
        keeps_containsAll hP s supply
  | equals name other =>
      exact keeps_boolean ((keeps_set name).bind fun s => (keeps_operand other).bind fun v =>
        keeps_act (keeps_equals hP s v))
  | isSame name other =>
      exact keeps_boolean ((keeps_set name).bind fun s => (keeps_operand other).bind fun v =>
        .pure _)
  | size name => exact (keeps_set name).bind fun s => .pure _
  | isEmpty name => exact keeps_boolean ((keeps_set name).bind fun s => .pure _)
  | hashCode name => exact (keeps_set name).bind fun s => .pure _
  | values name => exact (keeps_set name).bind fun s => .pure _
  | iterate name cursor =>
      exact (keeps_set name).bind fun s => (keeps_bindCursor cursor _).bind fun _ => .pure _
  | next cursor => exact keeps_next cursor
  | visit name failsAt =>
      refine Keeps.get.bind fun s => ?_
      split
      · exact .pure _
      · exact .pure _
  | toArray name array? =>
      refine (keeps_set name).bind fun s => ?_
      cases array? with
      | none => exact .pure _
      | some array => exact (keeps_bindArray array _).bind fun _ => .pure _
  | sort name order =>
      exact (keeps_set name).bind fun s => (Keeps.lift _).bind fun sorted => .pure _
  | writeInto name array offset => exact keeps_writeInto name array offset
  | toText name => exact (keeps_set name).bind fun s => (Keeps.lift _).bind fun t => .pure _
  | makeArray array values =>
      exact (Keeps.mapM keeps_operand values).bind fun xs => keeps_bindArray array _
  | push array value =>
      exact (keeps_array array).bind fun a => (keeps_operand value).bind fun x =>
        keeps_bindArray array _
  | write array index value =>
      exact (keeps_array array).bind fun a => (keeps_operand index).bind fun position =>
        (keeps_operand value).bind fun x => (Keeps.lift _).bind fun copy => keeps_bindArray array _
  | describeArray array => exact (keeps_array array).bind fun a => .pure _
  | hash rule value =>
      exact (keeps_operand value).bind fun v =>
        (keeps_act (rule.keeps_rawHash hP v)).bind fun x => .pure _
  | equal rule a b =>
      exact keeps_boolean ((keeps_operand a).bind fun x => (keeps_operand b).bind fun y =>
        keeps_act (x.keeps_equal hP rule y))

end Step

namespace Session

variable {P : IdentityCodes → Prop} {s : Session}

theorem codes_of_step (hP : IdentityCodes.Lasting P) (command : Command) (hs : P s.codes) :
    P (s.step command).2.codes := by
  have keeps := Step.keeps_answer hP command
  unfold step
  cases h : Step.answer command s with
  | ok answer t => exact keeps.of_ok hs h
  | error failure t => exact keeps.of_error hs h

/-- The induction is on the commands. -/
theorem codes_of_run (hP : IdentityCodes.Lasting P) (commands : List Command) (hs : P s.codes) :
    P (s.run commands).2.codes := by
  induction commands generalizing s with
  | nil => exact hs
  | cons command commands ih => exact ih (codes_of_step hP command hs)

theorem leadsTo_run (s : Session) (commands : List Command) :
    s.codes.LeadsTo (s.run commands).2.codes :=
  codes_of_run (IdentityCodes.lasting_leadsTo s.codes) commands (.refl s.codes)

theorem run_append (s : Session) (earlier later : List Command) :
    (s.run (earlier ++ later)).2 = ((s.run earlier).2.run later).2 := by
  induction earlier generalizing s with
  | nil => rfl
  | cons command earlier ih => exact ih (s.step command).2

/-- At any point of a session that begins without codes, and whatever comes later: a request for the
identity code of an object is answered, and from then on the object has this code and no request for
it numbers an object. So has every object that was asked for before. While at most `2 ^ 32` objects
have codes, different objects have different ones. -/
theorem identity_codes_of_run (start : Session) (hstart : start.codes = {})
    (earlier later : List Command) :
    (start.run earlier).2.codes.LeadsTo (start.run (earlier ++ later)).2.codes ∧
      ∀ c, (start.run earlier).2.codes.LeadsTo c →
        (∀ (rule : Rule) v ref, rule.identified? v = some ref → ∃ k d,
          rule.equivalence.hash v c = .ok k.toNumber d ∧ rule.equivalence.code v c = .ok k d ∧
            c.LeadsTo d ∧ ref ∈ d.requested ∧ d.Fixed ref k) ∧
        c.requested.Nodup ∧ (∀ ref ∈ c.requested, c.Fixed ref (c.request ref).1) ∧
        (c.requested.length ≤ 2 ^ 32 → ∀ ref ∈ c.requested, ∀ ref' ∈ c.requested, ref ≠ ref' →
          (c.request ref).1 ≠ (c.request ref').1) := by
  refine ⟨?_, fun c hc => ⟨fun rule v ref h => ?_, ?_, fun ref href => ?_, ?_⟩⟩
  · rw [run_append]
    exact leadsTo_run _ later
  · exact ⟨_, _, rule.hash_eq_ok h c, rule.code_eq_ok h c, c.leadsTo_request ref,
      IdentityCodes.mem_requested_request.mpr (Or.inr rfl), c.fixed_request ref⟩
  · have hfresh : start.codes.requested.Nodup := by
      rw [hstart]
      exact List.nodup_nil
    exact IdentityCodes.lasting_nodup.of_leadsTo hc
      (codes_of_run IdentityCodes.lasting_nodup earlier hfresh)
  · exact IdentityCodes.fixed_of_mem href
  · exact fun hlen ref href ref' href' => IdentityCodes.request_ne_of_ne hlen href href'

set_option maxRecDepth 4000 in
/-- A build under the natural rule numbers two records, and later the second has its code under the
rule of identity, whatever else is done. -/
theorem identity_codes_of_run_two :
    let record := fun n : ℕ => Value.object (.object n) (.record [])
    let both : Source := .values [.value (record 0), .value (record 1)]
    let earlier : List Command := [.make "both" both .natural (.value .undefined) true]
    let later : List Command :=
      [.contains "both" (.value (record 1)), .hash .identity (.value (record 0))]
    let start : Session := {}
    let c := (start.run earlier).2.codes
    c.requested = [.object 0, .object 1] ∧ c.LeadsTo (start.run (earlier ++ later)).2.codes ∧
      (∀ d, c.LeadsTo d → Rule.identity.equivalence.hash (record 1) d =
        .ok (IdentityCodes.codeAt 2).toNumber d) ∧
      (c.request (.object 0)).1 ≠ (c.request (.object 1)).1 := by
  intro record both earlier later start c
  obtain ⟨hlater, hall⟩ := identity_codes_of_run start rfl earlier later
  obtain ⟨-, -, hfixed, hdistinct⟩ := hall c (.refl c)
  have hrequested : c.requested = [.object 0, .object 1] := by
    simp only [c, start, earlier, both, record]
    rfl
  have hcode : (c.request (.object 1)).1 = IdentityCodes.codeAt 2 := by
    rw [IdentityCodes.request, hrequested]
    rfl
  refine ⟨hrequested, hlater, fun d hd => ?_, ?_⟩
  · obtain ⟨hhash, -⟩ := hfixed (.object 1) (by simp [hrequested]) d hd .identity (record 1) rfl
    rwa [hcode] at hhash
  · refine hdistinct ?_ _ (by simp [hrequested]) _ (by simp [hrequested]) (by decide)
    rw [hrequested]
    decide

end Session
end SealedSets
