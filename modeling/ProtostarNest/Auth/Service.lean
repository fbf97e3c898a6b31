import Mathlib.Data.List.Nodup
import ProtostarNest.Lib.Table
import ProtostarNest.Lib.Transition
import ProtostarNest.Validation

/-!
# `AuthService` and `JwtStrategy`

Signing up, signing in and the check of a bearer token, with the two functions of `AuthService` cut
at their `await`s.

* `SignupDto`, `SigninDto`: bodies that the validation pipe lets through;
* `advance`: the awaited call of a control point and the code after it;
* `validate`: what `JwtStrategy` makes of the payload of a verified token;
* `Sys`, `step`: any number of requests in flight, and token checks in between;
* `Advance`, `advance_sound`: what one step of a request can do.

A field that the client may leave out or set to `null` is an `Option (Option _)`: `none` is
`undefined` and `some none` is `null`.  What the libraries compute is in `Config`.
-/

namespace ProtostarNest.Auth

open Transition

inductive Role
  | ADMIN
  | STARGAZER
  | PROTOSTAR
  deriving DecidableEq

/-- The value of the role in the database and in a token. -/
def Role.text : Role → String
  | .ADMIN => "ADMIN"
  | .STARGAZER => "STARGAZER"
  | .PROTOSTAR => "PROTOSTAR"

structure User where
  id : String
  email : String
  password : String
  name : Option String
  role : Role
  createdAt : ℕ
  deriving DecidableEq

structure JwtPayload where
  sub : String
  email : String
  role : String
  deriving DecidableEq

/-- The setting `ROLE_KEY`, `none` when it is not set, and the libraries: `isEmail` of
validator.js, `bcrypt.compare`, and signing and verifying with `JWT_SECRET` at a time. -/
structure Config where
  ROLE_KEY : Option String
  isEmail : String → Bool
  compare : JsString → String → Bool
  sign : JwtPayload → ℕ → String
  verify : String → ℕ → Option JwtPayload

structure SignupDto (cfg : Config) where
  email : String
  password : JsString
  role : Option (Option Role)
  roleKey : Option (Option String)
  email_valid : cfg.isEmail email = true
  password_valid : 8 ≤ validatorLength password.toWellFormed

structure SigninDto (cfg : Config) where
  email : String
  password : JsString
  email_valid : cfg.isEmail email = true
  password_valid : 8 ≤ validatorLength password.toWellFormed

inductive Exception
  | ConflictException (message : String)
  | ForbiddenException (message : String)
  | UnauthorizedException (message : String)
  | PrismaError (code : String)
  | PrismaValidationError
  | Error (message : String)
  deriving DecidableEq

structure UserDto where
  id : String
  email : String
  name : Option String
  password : String
  role : Role
  createdAt : ℕ
  deriving DecidableEq

/-- The constructor of `UserDto`; an empty name becomes `undefined`. -/
def UserDto.new (dto : User) : UserDto where
  id := dto.id
  email := dto.email
  name := dto.name.filter fun name => name ≠ ""
  password := dto.password
  role := dto.role
  createdAt := dto.createdAt

inductive Reply
  | user (user : UserDto)
  | session (user : UserDto) (accessToken : String)
  deriving DecidableEq

/-- `payload` in `signin`. -/
def User.payload (user : User) : JwtPayload := ⟨user.id, user.email, user.role.text⟩

/-- The user that a request with a valid token acts as. -/
structure PartialUser where
  id : String
  email : String
  role : String
  deriving DecidableEq

/-- `JwtStrategy.validate`. -/
def validate (payload : JwtPayload) : PartialUser := ⟨payload.sub, payload.email, payload.role⟩

inductive Pc (cfg : Config)
  | signupFind (dto : SignupDto cfg)
  | signupHash (dto : SignupDto cfg)
  | signupCreate (dto : SignupDto cfg) (hashedPassword : String)
  | signinFind (dto : SigninDto cfg)
  | signinCompare (dto : SigninDto cfg) (user : User)
  | done (result : Except Exception Reply)

/-- The request ends with an exception. -/
def Pc.throw {cfg : Config} (e : Exception) : Pc cfg := .done (.error e)

/-- What one awaited call gets from outside: the error it fails with, the result of
`bcrypt.hash`, a fresh id and the clock. -/
structure Env where
  fail : Option String := none
  hash : String := ""
  id : String := ""
  now : ℕ := 0

/-- The `users` table, unique by email and by id, and what has happened: the signups that
created a row, the tokens that `signin` has issued, and the requests that `JwtStrategy` has
authenticated, each with its token. -/
structure Sys (cfg : Config) where
  users : Table User.email
  signups : List (User × SignupDto cfg)
  issued : List (String × JwtPayload)
  authenticated : List (String × PartialUser)
  ops : List (Pc cfg)

def Sys.init (cfg : Config) : Sys cfg := ⟨Table.empty, [], [], [], []⟩

inductive Event (cfg : Config)
  | signup (dto : SignupDto cfg)
  | signin (dto : SigninDto cfg)
  | resume (i : ℕ) (env : Env)
  | authenticate (token : String) (now : ℕ)

section Advance

variable {cfg : Config} (s : Sys cfg) (env : Env)

/-- The row that `signup` creates when `role` is not `null`. -/
def newUser (dto : SignupDto cfg) (hashedPassword : String) (role : Option Role) : User where
  id := env.id
  email := dto.email
  password := hashedPassword
  name := none
  role := role.getD .STARGAZER
  createdAt := env.now

/-- `prisma.user.create` in `signup`; Prisma rejects `null` for the role and has a default for
`undefined`. -/
def createUser (dto : SignupDto cfg) (hashedPassword : String) :
    Except Exception (User × Table User.email) :=
  match env.fail with
  | some e => .error (.Error e)
  | none =>
      if dto.role = some none then .error .PrismaValidationError
      else
        let user := newUser env dto hashedPassword dto.role.join
        if user.id ∈ s.users.rows.map User.id then .error (.PrismaError "P2002")
        else
          match s.users.create user with
          | none => .error (.PrismaError "P2002")
          | some users => .ok (user, users)

/-- The awaited call of a control point and the code after it. -/
def advance : Pc cfg → Option (Sys cfg × Pc cfg)
  -- signup
  | .signupFind dto =>
      match env.fail with
      | some e => some (s, .throw (.Error e))
      | none =>
          if (s.users.findUnique dto.email).isSome then
            some (s, .throw (.ConflictException "User already exists"))
          else if dto.role = some (some .ADMIN) ∧ dto.roleKey ≠ cfg.ROLE_KEY.map some then
            some (s, .throw (.ForbiddenException "Invalid Admin role key"))
          else some (s, .signupHash dto)
  | .signupHash dto =>
      match env.fail with
      | some e => some (s, .throw (.Error e))
      | none => some (s, .signupCreate dto env.hash)
  | .signupCreate dto hashedPassword =>
      match createUser s env dto hashedPassword with
      | .error e => some (s, .throw e)
      | .ok (user, users) =>
          some ({ s with users := users, signups := (user, dto) :: s.signups },
            .done (.ok (.user (.new user))))
  -- signin
  | .signinFind dto =>
      match env.fail with
      | some e => some (s, .throw (.Error e))
      | none =>
          match s.users.findUnique dto.email with
          | none => some (s, .throw (.UnauthorizedException "Invalid credentials"))
          | some user => some (s, .signinCompare dto user)
  | .signinCompare dto user =>
      match env.fail with
      | some e => some (s, .throw (.Error e))
      | none =>
          if cfg.compare dto.password user.password = false then
            some (s, .throw (.UnauthorizedException "Invalid credentials"))
          else
            let token := cfg.sign user.payload env.now
            some ({ s with issued := (token, user.payload) :: s.issued },
              .done (.ok (.session (.new user) token)))
  | .done _ => none

end Advance

def step {cfg : Config} (s : Sys cfg) : Event cfg → Option (Sys cfg)
  | .signup dto => some { s with ops := s.ops ++ [.signupFind dto] }
  | .signin dto => some { s with ops := s.ops ++ [.signinFind dto] }
  | .resume i env =>
      s.ops[i]?.bind fun pc => (advance s env pc).map fun r => { r.1 with ops := s.ops.set i r.2 }
  | .authenticate token now =>
      match cfg.verify token now with
      | none => some s
      | some payload =>
          some { s with authenticated := (token, validate payload) :: s.authenticated }

/-! ### Inversion -/

section Inversion

variable {cfg : Config} {s s' : Sys cfg} {env : Env} {pc pc' : Pc cfg}

/-- What one step of a request can do. -/
inductive Advance (s : Sys cfg) (env : Env) : Pc cfg → Sys cfg → Pc cfg → Prop
  | stop (pc : Pc cfg) (result : Except Exception Reply) : Advance s env pc s (.done result)
  | checked (dto : SignupDto cfg)
      (hkey : dto.role = some (some .ADMIN) → dto.roleKey = cfg.ROLE_KEY.map some) :
      Advance s env (.signupFind dto) s (.signupHash dto)
  | hashed (dto : SignupDto cfg) : Advance s env (.signupHash dto) s (.signupCreate dto env.hash)
  | created (dto : SignupDto cfg) (hashedPassword : String) (role : Option Role)
      (users : Table User.email) (hrole : role = dto.role.join)
      (husers : s.users.create (newUser env dto hashedPassword role) = some users) :
      Advance s env (.signupCreate dto hashedPassword)
        { s with
          users := users
          signups := (newUser env dto hashedPassword role, dto) :: s.signups }
        (.done (.ok (.user (.new (newUser env dto hashedPassword role)))))
  | found (dto : SigninDto cfg) (user : User) (huser : user ∈ s.users.rows) :
      Advance s env (.signinFind dto) s (.signinCompare dto user)
  | signedIn (dto : SigninDto cfg) (user : User) :
      Advance s env (.signinCompare dto user)
        { s with issued := (cfg.sign user.payload env.now, user.payload) :: s.issued }
        (.done (.ok (.session (.new user) (cfg.sign user.payload env.now))))

theorem createUser_ok {dto : SignupDto cfg} {hashedPassword : String} {user : User}
    {users : Table User.email} (h : createUser s env dto hashedPassword = .ok (user, users)) :
    user = newUser env dto hashedPassword dto.role.join ∧ s.users.create user = some users := by
  unfold createUser at h
  split at h
  · cases h
  · split_ifs at h
    dsimp only at h
    split_ifs at h
    split at h
    · cases h
    · rename_i husers
      cases h
      exact ⟨rfl, husers⟩

theorem advance_sound (h : advance s env pc = some (s', pc')) : Advance s env pc s' pc' := by
  cases pc with
  | signupFind dto =>
    simp only [advance] at h
    split at h
    · cases h
      exact .stop _ _
    · split_ifs at h with hfound hkey
      · cases h
        exact .stop _ _
      · cases h
        exact .stop _ _
      · cases h
        exact .checked dto fun hrole => by_contra fun hne => hkey ⟨hrole, hne⟩
  | signupHash dto =>
    simp only [advance] at h
    split at h
    · cases h
      exact .stop _ _
    · cases h
      exact .hashed dto
  | signupCreate dto hashedPassword =>
    simp only [advance] at h
    split at h
    · cases h
      exact .stop _ _
    · rename_i user users hcreate
      obtain ⟨rfl, husers⟩ := createUser_ok hcreate
      cases h
      exact .created dto hashedPassword _ users rfl husers
  | signinFind dto =>
    simp only [advance] at h
    split at h
    · cases h
      exact .stop _ _
    · split at h
      · cases h
        exact .stop _ _
      · rename_i user huser
        cases h
        exact .found dto user (Table.findUnique_eq_some.1 huser).1
  | signinCompare dto user =>
    simp only [advance] at h
    split at h
    · cases h
      exact .stop _ _
    · split_ifs at h
      · cases h
        exact .stop _ _
      · cases h
        exact .signedIn dto user
  | done result => cases h

end Inversion

end ProtostarNest.Auth
