import PatternTable.Table.Basic

/-!
# Building with a trail

Building a rule leaves a trail and ends with a result or with the cause of a failure. What follows a
failure leaves no trail, and what precedes it does.

Results:
* `Build` is a lawful monad.
* `result_bind_eq_ok_iff`, `result_bind_of_ok`, `trail_bind_of_ok` and `bind_of_error` say what
  result and what trail a sequence has.
-/

namespace PatternTable

/-- The outcome of building something, and the trail that it left. -/
structure Build (α : Type) where
  result : Except Cause α
  trail : Trail

namespace Build

variable {α β : Type}

/-- Ends with a value. -/
def succeed (value : α) : Build α :=
  ⟨.ok value, {}⟩

/-- Ends with a failure. -/
def fail (cause : Cause) : Build α :=
  ⟨.error cause, {}⟩

/-- Leaves a trail. -/
def leave (trail : Trail) : Build Unit :=
  ⟨.ok (), trail⟩

/-- Goes on with a value, unless building it failed. -/
def andThen (build : Build α) (next : α → Build β) : Build β :=
  match build.result with
  | .error cause => ⟨.error cause, build.trail⟩
  | .ok value => ⟨(next value).result, build.trail ++ (next value).trail⟩

instance : Monad Build where
  pure := succeed
  bind := andThen

/-- Builds what there may be, as a list of at most one. -/
def optionally (value : Option α) (build : α → Build β) : Build (List β) :=
  match value with
  | none => pure []
  | some value => do
    let built ← build value
    pure [built]

theorem pure_andThen (value : α) (next : α → Build β) :
    (pure value : Build α) >>= next = next value := by
  show andThen (succeed value) next = next value
  simp [andThen, succeed, Trail.empty_append]

theorem andThen_pure (build : Build α) : build >>= pure = build := by
  show andThen build succeed = build
  rcases build with ⟨result, trail⟩
  cases result <;> simp [andThen, succeed, Trail.append_empty]

theorem andThen_assoc {γ : Type} (build : Build α) (f : α → Build β) (g : β → Build γ) :
    build >>= f >>= g = build >>= fun value => f value >>= g := by
  show andThen (andThen build f) g = andThen build fun value => andThen (f value) g
  rcases build with ⟨result, trail⟩
  cases result with
  | error cause => rfl
  | ok value =>
    simp only [andThen]
    cases h : (f value).result with
    | error cause => simp
    | ok built => simp [Trail.append_assoc]

instance : LawfulMonad Build :=
  LawfulMonad.mk' Build
    (fun build => by
      show andThen build (fun value => succeed value) = build
      exact andThen_pure build)
    (fun value next => pure_andThen value next)
    (fun build f g => andThen_assoc build f g)

/-- A sequence succeeds exactly when each of its parts does. -/
theorem result_bind_eq_ok_iff (build : Build α) (next : α → Build β) (value : β) :
    (build >>= next).result = .ok value ↔
      ∃ a, build.result = .ok a ∧ (next a).result = .ok value := by
  show (andThen build next).result = .ok value ↔ _
  rcases build with ⟨result, trail⟩
  cases result <;> simp [andThen]

/-- What follows a success decides the result. -/
theorem result_bind_of_ok {build : Build α} {a : α} (h : build.result = .ok a)
    (next : α → Build β) : (build >>= next).result = (next a).result := by
  show (andThen build next).result = _
  rw [andThen, h]

/-- What follows a success adds its trail. -/
theorem trail_bind_of_ok {build : Build α} {a : α} (h : build.result = .ok a)
    (next : α → Build β) : (build >>= next).trail = build.trail ++ (next a).trail := by
  show (andThen build next).trail = _
  rw [andThen, h]

/-- What follows a failure leaves no trail. -/
theorem bind_of_error {build : Build α} {cause : Cause} (h : build.result = .error cause)
    (next : α → Build β) : build >>= next = ⟨.error cause, build.trail⟩ := by
  show andThen build next = _
  rw [andThen, h]

end Build

end PatternTable
