import Flipbook.Proofs.Script.WellFormed
import Flipbook.Script.Statement

/-!
# What reading a statement yields

A reading either fails or yields a value, and every check on the way to the value says something
about it. This file collects what the checks say, reader by reader, up to whole statements:

- `number_yields`, `range_yields`: finite numbers and frame ranges in order;
- `element_yields`, `move_yields`, `line_yields`: the parts of a timeline;
- `statement_yields`: a statement fits what is declared in front of it.
-/

namespace Flipbook.Script

/-- Whatever a computation yields has a property; it may also fail. -/
def Yields {ε β : Type} (x : Except ε β) (P : β → Prop) : Prop :=
  ∀ b, x = .ok b → P b

section Yields

variable {ε β γ : Type} {x : Except ε β} {f : β → Except ε γ} {P Q : β → Prop} {R : γ → Prop}

theorem yields_ok {b : β} (h : P b) : Yields (.ok b : Except ε β) P := by
  intro c hc
  cases hc
  exact h

theorem yields_error (e : ε) : Yields (.error e) P := by
  intro b hb
  cases hb

theorem yields_true (x : Except ε β) : Yields x fun _ => True :=
  fun _ _ => trivial

theorem Yields.imp (h : Yields x P) (hPQ : ∀ b, P b → Q b) : Yields x Q :=
  fun b hb => hPQ b (h b hb)

theorem Yields.bind (h : Yields x P) (hf : ∀ b, P b → Yields (f b) R) : Yields (x >>= f) R := by
  intro c hc
  cases x with
  | error e => cases hc
  | ok b => exact hf b (h b rfl) c hc

theorem Yields.map {g : β → γ} (h : Yields x fun b => R (g b)) : Yields (g <$> x) R := by
  intro c hc
  cases x with
  | error e => cases hc
  | ok b =>
    cases hc
    exact h b rfl

/-- A check that fails leaves what it does not reject. -/
theorem yields_check {p : Prop} [Decidable p] (e : ε) (h : ¬ p → Yields x P) :
    Yields (if p then .error e else x) P := by
  by_cases hp : p
  · rw [if_pos hp]
    exact yields_error e
  · rw [if_neg hp]
    exact h hp

end Yields

section Tokens

variable {α : Type} [Scalar α]

open Scalar

theorem numeral_yields {β : Type} {value? : Decimal → Option β} {P : β → Prop}
    (h : ∀ d v, value? d = some v → P v) (field : Field) (tokens : List String) :
    Yields (numeral value? field tokens) fun r => P r.1 := by
  unfold numeral
  refine (yields_true _).bind ?_
  rintro ⟨token, rest⟩ -
  dsimp only
  split
  · exact yields_error _
  · split
    · exact yields_error _
    · exact yields_ok (h _ _ ‹_›)

theorem number_yields (field : Field) (tokens : List String) :
    Yields (number field tokens : Except Problem (α × List String)) fun r =>
      isFinite r.1 = true := by
  have hvalue : ∀ d v, finiteScalar? d = some v → isFinite (v : α) = true := by
    intro d v hv
    -- A numeral without a finite value has none at all.
    by_cases hfinite : isFinite (ofDecimal d : α) = true
    · rw [finiteScalar?, if_pos hfinite] at hv
      rwa [← Option.some.inj hv]
    · rw [finiteScalar?, if_neg hfinite] at hv
      cases hv
  exact numeral_yields hvalue field tokens

theorem integer_yields (field : Field) (tokens : List String) :
    Yields (integer field tokens) fun r => r.1.natAbs ≤ greatestInteger := by
  unfold integer
  refine (yields_true _).bind ?_
  rintro ⟨token, rest⟩ -
  dsimp only
  split
  · exact yields_error _
  · rename_i n hn
    by_cases hle : n.natAbs ≤ greatestInteger
    · rw [if_pos hle]
      exact yields_ok hle
    · rw [if_neg hle]
      exact yields_error _

theorem range_yields (field : Field) (tokens : List String) :
    Yields (range field tokens) fun r => r.1.first ≤ r.1.last := by
  unfold range
  refine (yields_true _).bind ?_
  rintro ⟨token, rest⟩ -
  dsimp only
  split
  · exact yields_error _
  · rename_i first last hrange
    refine yields_check _ fun _ => yields_check _ fun _ => yields_check _ fun hordered => ?_
    have hle : first.toNat ≤ last.toNat := Int.toNat_le_toNat (Int.not_lt.mp hordered)
    exact yields_ok hle

end Tokens

section Parts

variable {α : Type} [Scalar α] {scope : Scope}

open Scalar

theorem transform?_yields {keyword : String} {tokens : List String}
    {reading : Except Problem (Transform α × List String)}
    (h : transform? keyword tokens = some reading) : Yields reading fun r => r.1.Finite := by
  unfold transform? at h
  split at h
  · rw [← Option.some.inj h]
    refine (number_yields _ _).bind ?_
    rintro ⟨dx, tokens⟩ hdx
    refine (number_yields _ _).bind ?_
    rintro ⟨dy, tokens⟩ hdy
    exact yields_ok ⟨hdx, hdy⟩
  · rw [← Option.some.inj h]
    refine (number_yields _ _).bind ?_
    rintro ⟨degrees, tokens⟩ hdegrees
    exact yields_ok hdegrees
  · rw [← Option.some.inj h]
    refine (number_yields _ _).bind ?_
    rintro ⟨sx, tokens⟩ hsx
    dsimp only
    -- The second factor may be missing.
    split
    · refine (number_yields _ _).bind ?_
      rintro ⟨sy, tokens⟩ hsy
      exact yields_ok ⟨hsx, hsy⟩
    · exact yields_ok ⟨hsx, hsx⟩
  · cases h

theorem blink_yields (tokens : List String) :
    Yields (blink tokens : Except Problem (Blink α × List String)) fun r => r.1.WellFormed := by
  unfold blink
  refine (yields_true _).bind ?_
  rintro ⟨on, tokens⟩ -
  refine (yields_true _).bind ?_
  rintro ⟨off, tokens⟩ -
  refine (yields_true _).bind ?_
  rintro ⟨phase, tokens⟩ -
  refine yields_check _ fun hon => yields_check _ fun hoff => ?_
  have hnonneg := Decidable.not_not.mp hoff
  exact yields_ok ⟨Decidable.not_not.mp hon, hnonneg.1, hnonneg.2⟩

theorem finite_neutral [FiniteUnits α] : (Pose.neutral : Pose α).Finite where
  x := FiniteUnits.zero
  y := FiniteUnits.zero
  rotation := FiniteUnits.zero
  scaleX := FiniteUnits.one
  scaleY := FiniteUnits.one

theorem finite_placed {pose : Pose α} {op : Transform α} (hpose : pose.Finite) (hop : op.Finite) :
    (placed pose op).Finite := by
  cases op with
  | translate dx dy => exact { hpose with x := hop.1, y := hop.2 }
  | rotate degrees => exact { hpose with rotation := hop }
  | scale sx sy => exact { hpose with scaleX := hop.1, scaleY := hop.2 }

/-- An element that is being read: its name and line stay as they are. -/
structure Declares (id : String) (line : Nat) (e : Element α) : Prop where
  wellFormed : e.WellFormed
  visible : ∀ r ∈ e.visible, r.first ≤ r.last
  id_eq : e.id = id
  line_eq : e.line = line

theorem elementOption_yields {id : String} {line : Nat} {e : Element α} (h : Declares id line e)
    (keyword : String) (tokens : List String) :
    Yields (elementOption e keyword tokens) fun r => Declares id line r.1 := by
  unfold elementOption
  split
  · rename_i reading hreading
    refine (transform?_yields hreading).bind ?_
    rintro ⟨op, tokens⟩ hop
    have hpose : (placed e.pose op).Finite := finite_placed h.wellFormed.pose hop
    exact yields_ok { h with wellFormed := { h.wellFormed with pose := hpose } }
  · split
    · exact yields_ok { h with wellFormed := { h.wellFormed with } }
    · refine (range_yields _ _).bind ?_
      rintro ⟨visible, tokens⟩ hvisible
      refine yields_ok { h with wellFormed := { h.wellFormed with }, visible := ?_ }
      rintro r hr
      rwa [← Option.some.inj hr]
    · refine (blink_yields _).bind ?_
      rintro ⟨period, tokens⟩ hperiod
      refine yields_ok { h with wellFormed := { h.wellFormed with blink := ?_ } }
      rintro b hb
      rwa [← Option.some.inj hb]
    · exact yields_error _

theorem elementOptions_yields {id : String} {line : Nat} (fuel : Nat) {e : Element α}
    (h : Declares id line e) (seen tokens : List String) :
    Yields (elementOptions fuel e seen tokens) (Declares id line) := by
  induction fuel generalizing e seen tokens with
  | zero =>
    cases tokens with
    | nil => exact yields_ok h
    | cons keyword tokens => exact yields_error _
  | succ fuel ih =>
    cases tokens with
    | nil => exact yields_ok h
    | cons keyword tokens =>
      rw [elementOptions]
      refine yields_check _ fun _ => (elementOption_yields h keyword tokens).bind ?_
      rintro ⟨e', tokens⟩ he'
      exact ih he' _ _

/-- An element gets the line of its statement and a name that was free. -/
theorem element_yields [FiniteUnits α] (scope : Scope) (tokens : List String) :
    Yields (element scope tokens : Except Problem (Element α)) fun e =>
      scope.declared e.id = none ∧ Declares e.id scope.line e := by
  unfold element
  refine (yields_true _).bind ?_
  rintro ⟨id, tokens⟩ -
  refine (yields_true _).bind ?_
  rintro ⟨source, tokens⟩ -
  dsimp only
  split
  · exact yields_error _
  · rename_i hfree
    split
    · -- The options start from an element that has its name, its line, and nothing else.
      have hstart : Declares id scope.line
          { id, source, pose := (Pose.neutral : Pose α), fit := true, visible := none, blink := none,
            line := scope.line } :=
        ⟨⟨finite_neutral, fun _ hb => (Option.not_mem_none _ hb).elim⟩,
          fun _ hr => (Option.not_mem_none _ hr).elim, rfl, rfl⟩
      refine (elementOptions_yields tokens.length hstart [] tokens).imp ?_
      rintro e he
      have hid := he.id_eq
      subst hid
      exact ⟨hfree, he⟩
    · exact yields_error _

theorem transforms_yields (fuel : Nat) {ops : List (Transform α)} (tokens : List String)
    (hchannels : (ops.map Transform.channel).Nodup) (hfinite : ∀ op ∈ ops, op.Finite) :
    Yields (transforms fuel ops tokens) fun all =>
      (all.map Transform.channel).Nodup ∧ ∀ op ∈ all, op.Finite := by
  induction fuel generalizing ops tokens with
  | zero =>
    cases tokens with
    | nil => exact yields_ok ⟨hchannels, hfinite⟩
    | cons keyword tokens => exact yields_error _
  | succ fuel ih =>
    cases tokens with
    | nil => exact yields_ok ⟨hchannels, hfinite⟩
    | cons keyword tokens =>
      rw [transforms]
      split
      · exact yields_error _
      · rename_i reading hreading
        refine (transform?_yields hreading).bind ?_
        rintro ⟨op, tokens⟩ hop
        refine yields_check _ fun hnew => ih _ ?_ ?_
        · apply pairwise_map_append hchannels
          intro o ho heq
          exact hnew (List.any_eq_true.mpr ⟨o, ho, decide_eq_true heq⟩)
        · exact List.forall_mem_append.mpr ⟨hfinite, List.forall_mem_singleton.mpr hop⟩

end Parts

/-- What a statement says, seen from what is declared in front of it. -/
def Statement.Fits {α : Type} [Scalar α] (scope : Scope) : Statement α → Prop
  | .frames count => 1 ≤ count ∧ count ≤ greatestInteger
  | .fps rate => 0 < rate
  | .canvas size => size.WellFormed
  | .element e => scope.declared e.id = none ∧ Declares e.id scope.line e
  | .move id range ops => scope.declared id ≠ none ∧ range.first ≤ range.last ∧ OneOfEach ops
  | .line mark => (∀ id ∈ mark.elementId, scope.declared id ≠ none) ∧
      (∀ r ∈ mark.range, r.first ≤ r.last) ∧ mark.Finite ∧ mark.line = scope.line

section Statements

variable {α : Type} [Scalar α] (scope : Scope) (tokens : List String)

theorem checkDeclared_yields (field : Field) (id : String) :
    Yields (checkDeclared scope field id) fun _ => scope.declared id ≠ none := by
  unfold checkDeclared
  by_cases hid : (scope.declared id).isSome = true
  · rw [if_pos hid]
    exact yields_ok (Option.isSome_iff_ne_none.mp hid)
  · rw [if_neg hid]
    exact yields_error _

theorem move_yields : Yields (move scope tokens : Except Problem (Statement α))
    (Statement.Fits scope) := by
  unfold move
  refine (yields_true _).bind ?_
  rintro ⟨id, tokens⟩ -
  refine (range_yields _ _).bind ?_
  rintro ⟨frames, tokens⟩ hframes
  refine (checkDeclared_yields scope _ id).bind ?_
  rintro - hid
  have hnone : (([] : List (Transform α)).map Transform.channel).Nodup := List.nodup_nil
  refine (transforms_yields _ _ hnone (List.forall_mem_nil _)).bind ?_
  rintro ops ⟨hchannels, hfinite⟩
  refine yields_check _ fun hempty => yields_ok ⟨hid, hframes, ?_, hchannels, hfinite⟩
  rwa [List.isEmpty_iff] at hempty

theorem lineRange_yields : Yields (lineRange tokens) fun r =>
    ∀ range ∈ r.1, range.first ≤ range.last := by
  unfold lineRange
  split
  · refine Yields.map ((range_yields _ _).imp ?_)
    rintro ⟨frames, tokens⟩ hframes range hrange
    rwa [← Option.some.inj hrange]
  · exact yields_ok fun _ hr => (Option.not_mem_none _ hr).elim

theorem lineOwner_yields : Yields (lineOwner scope tokens) fun r =>
    ∀ id ∈ r.1, scope.declared id ≠ none := by
  unfold lineOwner
  split
  · refine (yields_true _).bind ?_
    rintro ⟨id, tokens⟩ -
    refine (checkDeclared_yields scope _ id).bind ?_
    rintro - hid
    refine yields_ok fun owner howner => ?_
    rwa [← Option.some.inj howner]
  · exact yields_ok fun _ hid => (Option.not_mem_none _ hid).elim

theorem line_yields : Yields (line scope tokens : Except Problem (LineMark α)) fun mark =>
    (Statement.line mark).Fits scope := by
  unfold line
  refine (lineRange_yields tokens).bind ?_
  rintro ⟨frames, tokens⟩ hframes
  refine (number_yields _ _).bind ?_
  rintro ⟨x₁, tokens⟩ hx₁
  refine (number_yields _ _).bind ?_
  rintro ⟨y₁, tokens⟩ hy₁
  refine (number_yields _ _).bind ?_
  rintro ⟨x₂, tokens⟩ hx₂
  refine (number_yields _ _).bind ?_
  rintro ⟨y₂, tokens⟩ hy₂
  refine (lineOwner_yields scope tokens).bind ?_
  rintro ⟨owner, tokens⟩ howner
  refine (yields_true _).bind ?_
  rintro - -
  have hends : Point.isFinite ⟨x₁, y₁⟩ = true ∧ Point.isFinite ⟨x₂, y₂⟩ = true :=
    ⟨Bool.and_eq_true_iff.mpr ⟨hx₁, hy₁⟩, Bool.and_eq_true_iff.mpr ⟨hx₂, hy₂⟩⟩
  exact yields_ok ⟨howner, hframes, hends, rfl⟩

theorem frameCount_yields : Yields (frameCount tokens) fun count =>
    1 ≤ count ∧ count ≤ greatestInteger := by
  unfold frameCount
  refine (integer_yields _ _).bind ?_
  rintro ⟨count, tokens⟩ hcount
  refine (yields_true _).bind ?_
  rintro - -
  refine yields_check _ fun hpos => yields_ok ?_
  dsimp only at hcount
  omega

theorem frameRate_yields : Yields (frameRate tokens) fun rate => 0 < rate := by
  unfold frameRate
  refine (yields_true _).bind ?_
  rintro ⟨rate, tokens⟩ -
  refine (yields_true _).bind ?_
  rintro - -
  by_cases hpos : 0 < rate
  · rw [if_pos hpos]
    exact yields_ok hpos
  · rw [if_neg hpos]
    exact yields_error _

theorem canvasSize_yields : Yields (canvasSize tokens) Canvas.WellFormed := by
  unfold canvasSize
  refine (integer_yields _ _).bind ?_
  rintro ⟨width, tokens⟩ hwidth
  refine (integer_yields _ _).bind ?_
  rintro ⟨height, tokens⟩ hheight
  refine (yields_true _).bind ?_
  rintro - -
  refine yields_check _ fun hpos => yields_ok ?_
  rw [not_or, Int.not_le, Int.not_le] at hpos
  dsimp only at hwidth hheight
  constructor <;> dsimp only <;> omega

/-- Every statement that is read fits what is declared in front of it. -/
theorem statement_yields [FiniteUnits α] :
    Yields (statement scope tokens : Except Problem (Statement α)) (Statement.Fits scope) := by
  unfold statement
  refine (yields_true _).bind ?_
  rintro ⟨keyword, tokens⟩ -
  dsimp only
  split
  · exact (frameCount_yields tokens).map
  · exact Yields.map (R := Statement.Fits scope) (frameRate_yields tokens)
  · exact Yields.map (R := Statement.Fits scope) (canvasSize_yields tokens)
  · exact (element_yields scope tokens).map
  · exact move_yields scope tokens
  · exact (line_yields scope tokens).map
  · exact yields_error _

end Statements

end Flipbook.Script
