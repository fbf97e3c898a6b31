import Mathlib.Data.Nat.Notation

/-!
# `GlobalExceptionFilter`

What a client receives when a handler throws.  The time and the path of the request, which the
filter adds to the body, are left out.
-/

namespace ProtostarNest

/-- An exception as the filter sees it: an `HttpException`, with its status and the `message` of
its response, or anything else. -/
inductive Thrown
  | HttpException (status : ℕ) (message : String)
  | other
  deriving DecidableEq

structure ErrorResponse where
  success : Bool
  statusCode : ℕ
  message : String
  deriving DecidableEq

def INTERNAL_SERVER_ERROR : ℕ := 500

def SERVICE_UNAVAILABLE : ℕ := 503

def GlobalExceptionFilter.catch : Thrown → ErrorResponse
  | .HttpException status message => ⟨false, status, message⟩
  | .other => ⟨false, INTERNAL_SERVER_ERROR, "Internal Server Error"⟩

end ProtostarNest
