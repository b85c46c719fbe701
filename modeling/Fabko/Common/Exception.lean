set_option autoImplicit false

/-! # Exceptions

What the modelled functions throw, and the two overloads of `fabko_assert` (`exception.hh`). Their
check is compiled out where `NDEBUG` is defined. -/

namespace Fabko

inductive ErrorCategory where
  | system
  | db
  | fbk
deriving DecidableEq, Repr

/-- `std::error_code`. -/
structure ErrorCode where
  value : Int
  category : ErrorCategory
deriving DecidableEq, Repr

inductive Exception where
  | runtimeError (what : String)
  | lengthError (what : String)
  /-- `fabko::exception` -/
  | fabko (ec : ErrorCode) (what : String)
deriving DecidableEq, Repr

def fabkoAssertCode (ndebug assertion : Bool) (ec : ErrorCode) (msg : String) :
    Except Exception Unit :=
  if ndebug then .ok ()
  else if assertion then .ok ()
  else .error (.fabko ec msg)

def fabkoAssert (ndebug assertion : Bool) (msg : String) : Except Exception Unit :=
  if ndebug then .ok () else fabkoAssertCode ndebug assertion ⟨42, .fbk⟩ msg

theorem fabkoAssertCode_eq_ok {ndebug assertion : Bool} {ec : ErrorCode} {msg : String} :
    fabkoAssertCode ndebug assertion ec msg = .ok () ↔ (ndebug = false → assertion = true) := by
  cases ndebug <;> cases assertion <;> simp [fabkoAssertCode]

theorem fabkoAssert_eq_ok {ndebug assertion : Bool} {msg : String} :
    fabkoAssert ndebug assertion msg = .ok () ↔ (ndebug = false → assertion = true) := by
  cases ndebug <;> cases assertion <;> simp [fabkoAssert, fabkoAssertCode]

end Fabko
