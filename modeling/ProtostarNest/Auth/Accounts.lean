import ProtostarNest.Auth.Roles
import ProtostarNest.Filter

/-!
# Concurrent signups for one address

`signup` looks the address up, hashes the password and inserts the row, and the unique index on
the address rejects a second insert.  The rejection is an error of Prisma, which `signup` does not
turn into a conflict.

* `Exception.thrown`: the exceptions as `GlobalExceptionFilter` sees them;
* `OneAccount`: the calls for one address end in one account and conflicts;
* `Single`: the invariant behind it, for runs in which each insert finds the address free;
* `oneAccount_iff`: these are the runs in which the property holds in every state.
-/

namespace ProtostarNest.Auth

open Transition

def CONFLICT : ℕ := 409

/-- What the filter sees of an exception. -/
def Exception.thrown : Exception → Thrown
  | .ConflictException message => .HttpException CONFLICT message
  | .ForbiddenException message => .HttpException 403 message
  | .UnauthorizedException message => .HttpException 401 message
  | .PrismaError _ => .other
  | .PrismaValidationError => .other
  | .Error _ => .other

section Accounts

variable {cfg : Config} {email : String}

/-- A signup for the address with a role that needs no key and that the database accepts. -/
def SignupDto.For (dto : SignupDto cfg) (email : String) : Prop :=
  dto.email = email ∧ dto.role ≠ some (some .ADMIN) ∧ dto.role ≠ some none

instance (dto : SignupDto cfg) (email : String) : Decidable (dto.For email) :=
  inferInstanceAs (Decidable (_ ∧ _))

/-- Signups for the address and their steps, of which none fails by itself; the new id is not
taken. -/
def SignupsFor (email : String) (s : Sys cfg) : Event cfg → Prop
  | .signup dto => dto.For email
  | .signin _ => False
  | .resume _ env => env.fail = none ∧ env.id ∉ s.users.rows.map User.id
  | .authenticate _ _ => True

instance (s : Sys cfg) : (e : Event cfg) → Decidable (SignupsFor email s e)
  | .signup dto => inferInstanceAs (Decidable (dto.For email))
  | .signin _ => instDecidableFalse
  | .resume _ env => inferInstanceAs (Decidable (env.fail = none ∧ _))
  | .authenticate _ _ => instDecidableTrue

/-- The signup that is about to insert its row. -/
def Pc.inserting : Pc cfg → Option (SignupDto cfg)
  | .signupCreate dto _ => some dto
  | _ => none

/-- Each insert finds its address free. -/
def Unclaimed (s : Sys cfg) : Event cfg → Prop
  | .resume i _ => ∀ pc ∈ s.ops[i]?, ∀ dto ∈ pc.inserting,
      dto.email ∉ s.users.rows.map User.email
  | _ => True

instance (s : Sys cfg) : (e : Event cfg) → Decidable (Unclaimed s e)
  | .signup _ => instDecidableTrue
  | .signin _ => instDecidableTrue
  | .resume i _ => inferInstanceAs (Decidable (∀ pc ∈ s.ops[i]?, ∀ dto ∈ pc.inserting, _))
  | .authenticate _ _ => instDecidableTrue

def Pc.succeeded : Pc cfg → Bool
  | .done (.ok _) => true
  | _ => false

/-- At most one row was ever created for the address; once a call has finished, exactly one has
succeeded; and the others end with a conflict, which the client is told. -/
structure OneAccount (email : String) (s : Sys cfg) : Prop where
  created : s.signups.countP (fun p => p.1.email = email) ≤ 1
  succeeds : ∀ result, .done result ∈ s.ops → s.ops.countP Pc.succeeded = 1
  conflicts : ∀ e, .done (.error e) ∈ s.ops →
    e = .ConflictException "User already exists" ∧
      (GlobalExceptionFilter.catch e.thrown).statusCode = CONFLICT

/-- Where a call of such a signup can be. -/
def Pc.Orderly (email : String) : Pc cfg → Prop
  | .signupFind dto => dto.For email
  | .signupHash dto => dto.For email
  | .signupCreate dto _ => dto.For email
  | .signinFind _ => False
  | .signinCompare _ _ => False
  | .done (.ok _) => True
  | .done (.error e) => e = .ConflictException "User already exists"

/-- Each row and each call is for the address, as many calls have succeeded as there are rows, and
no call has finished before there is one. -/
structure Single (email : String) (s : Sys cfg) : Prop where
  calls : ∀ pc ∈ s.ops, pc.Orderly email
  rows : ∀ user ∈ s.users.rows, user.email = email
  signups : s.signups.length = s.users.rows.length
  succeeded : s.ops.countP Pc.succeeded = s.users.rows.length
  finished : ∀ result, .done result ∈ s.ops → s.users.rows ≠ []

section Steps

variable {s s' : Sys cfg} {env : Env} {pc pc' : Pc cfg} {e : Event cfg}

/-- What a step of such a call does when its insert, if it makes one, finds the address free. -/
inductive Signs (email : String) (s : Sys cfg) : Sys cfg → Pc cfg → Prop
  | going (pc' : Pc cfg) (hpc : pc'.Orderly email) (hdone : ∀ result, pc' ≠ .done result) :
      Signs email s s pc'
  | conflict (hrows : s.users.rows ≠ []) :
      Signs email s s (.throw (.ConflictException "User already exists"))
  | created (dto : SignupDto cfg) (user : User) (users : Table User.email)
      (huser : user.email = email) (husers : users.rows = s.users.rows ++ [user]) :
      Signs email s { s with users := users, signups := (user, dto) :: s.signups }
        (.done (.ok (.user (.new user))))

theorem advance_signs (h : advance s env pc = some (s', pc')) (hpc : pc.Orderly email)
    (hfail : env.fail = none) (hid : env.id ∉ s.users.rows.map User.id)
    (hfree : ∀ dto ∈ pc.inserting, dto.email ∉ s.users.rows.map User.email) :
    Signs email s s' pc' := by
  cases pc with
  | signupFind dto =>
    simp only [advance, hfail] at h
    split_ifs at h with hfound hkey
    · cases h
      obtain ⟨user, huser⟩ := Option.isSome_iff_exists.1 hfound
      exact .conflict (List.ne_nil_of_mem (Table.findUnique_eq_some.1 huser).1)
    · exact absurd hkey.1 hpc.2.1
    · cases h
      exact .going _ hpc fun result hdone => by cases hdone
  | signupHash dto =>
    simp only [advance, hfail] at h
    cases h
    exact .going _ hpc fun result hdone => by cases hdone
  | signupCreate dto hashedPassword =>
    have hnew : (newUser env dto hashedPassword dto.role.join).email ∉
        s.users.rows.map User.email := hfree dto rfl
    have hfresh : (newUser env dto hashedPassword dto.role.join).id ∉
        s.users.rows.map User.id := hid
    simp only [advance, createUser, hfail, if_neg hpc.2.2, if_neg hfresh] at h
    cases hcreate : s.users.create (newUser env dto hashedPassword dto.role.join) with
    | none => exact absurd (Table.create_eq_none.1 hcreate) hnew
    | some users =>
      rw [hcreate] at h
      cases h
      exact .created dto _ users hpc.1 (Table.create_eq_some.1 hcreate).2
  | signinFind dto => exact hpc.elim
  | signinCompare dto user => exact hpc.elim
  | done result => cases h

theorem not_succeeded_of_advance (h : advance s env pc = some (s', pc')) :
    pc.succeeded = false := by
  cases pc with
  | done result => cases h
  | _ => rfl

/-- A new call for the address. -/
theorem Single.arrive (hs : Single email s) {dto : SignupDto cfg} (hdto : dto.For email) :
    Single email { s with ops := s.ops ++ [.signupFind dto] } := by
  refine ⟨fun pc hpc => ?_, hs.rows, hs.signups, ?_, fun result hdone => ?_⟩
  · rcases List.mem_append.1 hpc with hold | hnew
    · exact hs.calls pc hold
    · obtain rfl := List.mem_singleton.1 hnew
      exact hdto
  · show (s.ops ++ [Pc.signupFind dto]).countP Pc.succeeded = s.users.rows.length
    rw [List.countP_append, hs.succeeded]
    rfl
  · rcases List.mem_append.1 hdone with hold | hnew
    · exact hs.finished result hold
    · cases List.mem_singleton.1 hnew

/-- A call moves on. -/
theorem Single.moved (hs : Single email s) {i : ℕ} (hi : s.ops[i]? = some pc)
    (hpc : pc.succeeded = false) (hops : s'.ops = s.ops) (h : Signs email s s' pc') :
    Single email { s' with ops := s.ops.set i pc' } := by
  obtain ⟨hlt, rfl⟩ := List.getElem?_eq_some_iff.1 hi
  have hcount : (s.ops.set i pc').countP Pc.succeeded =
      s.users.rows.length + if pc'.succeeded then 1 else 0 := by
    rw [List.countP_set hlt, hpc, hs.succeeded]
    rfl
  cases h with
  | going pc' hpc' hdone =>
    have hnot : pc'.succeeded = false := by
      cases pc' with
      | done result => exact absurd rfl (hdone result)
      | _ => rfl
    refine ⟨fun pc hpc => ?_, hs.rows, hs.signups, ?_, fun result hmem => ?_⟩
    · rcases mem_set_cases hpc with rfl | hold
      · exact hpc'
      · exact hs.calls pc hold
    · rw [hcount, hnot]
      rfl
    · rcases mem_set_cases hmem with heq | hold
      · exact absurd heq.symm (hdone result)
      · exact hs.finished result hold
  | conflict hrows =>
    refine ⟨fun pc hpc => ?_, hs.rows, hs.signups, hcount, fun result hmem => hrows⟩
    rcases mem_set_cases hpc with rfl | hold
    · rfl
    · exact hs.calls pc hold
  | created dto user users huser husers =>
    refine ⟨fun pc hpc => ?_, fun u hu => ?_, ?_, ?_, fun result hmem => ?_⟩
    · rcases mem_set_cases hpc with rfl | hold
      · trivial
      · exact hs.calls pc hold
    · rw [husers] at hu
      rcases List.mem_append.1 hu with hold | hnew
      · exact hs.rows u hold
      · rw [List.mem_singleton.1 hnew]
        exact huser
    · rw [husers, List.length_append, List.length_cons, hs.signups]
      rfl
    · rw [hcount, husers, List.length_append]
      rfl
    · rw [husers]
      exact List.append_ne_nil_of_right_ne_nil _ (List.cons_ne_nil _ _)

theorem Single.step (hs : Single email s) (he : SignupsFor email s e) (hfree : Unclaimed s e)
    (h : step s e = some s') : Single email s' := by
  cases e with
  | signup dto =>
    obtain rfl := Option.some.inj h
    exact hs.arrive he
  | signin dto => exact he.elim
  | resume i env =>
    obtain ⟨pc, hpc, h⟩ := Option.bind_eq_some_iff.1 h
    obtain ⟨⟨s₁, pc'⟩, hadv, rfl⟩ := Option.map_eq_some_iff.1 h
    have hsigns := advance_signs hadv (hs.calls pc (List.mem_of_getElem? hpc)) he.1 he.2
      (hfree pc hpc)
    have hops : s₁.ops = s.ops := by
      cases hsigns <;> rfl
    exact hs.moved hpc (not_succeeded_of_advance hadv) hops hsigns
  | authenticate token now =>
    simp only [Auth.step] at h
    split at h <;> obtain rfl := Option.some.inj h
    · exact hs
    · exact ⟨hs.calls, hs.rows, hs.signups, hs.succeeded, hs.finished⟩

/-- Rows of one address are at most one. -/
theorem Single.length_le (hs : Single email s) : s.users.rows.length ≤ 1 := by
  have hkeys : s.users.rows.map User.email = List.replicate s.users.rows.length email :=
    List.eq_replicate_iff.2 ⟨List.length_map .., fun a ha => by
      obtain ⟨user, huser, rfl⟩ := List.mem_map.1 ha
      exact hs.rows user huser⟩
  exact List.nodup_replicate.1 (hkeys ▸ s.users.nodup)

theorem Single.oneAccount (hs : Single email s) : OneAccount email s := by
  refine ⟨?_, fun result hdone => ?_, fun e he => ?_⟩
  · calc s.signups.countP (fun p => p.1.email = email)
        ≤ s.signups.length := List.countP_le_length
      _ = s.users.rows.length := hs.signups
      _ ≤ 1 := hs.length_le
  · have hpos := List.length_pos_iff.2 (hs.finished result hdone)
    have hle := hs.length_le
    rw [hs.succeeded]
    omega
  · obtain rfl : e = .ConflictException "User already exists" := hs.calls _ he
    exact ⟨rfl, rfl⟩

/-- An insert that finds its address taken ends with an error that is not a conflict. -/
theorem advance_claimed {dto : SignupDto cfg} {hashedPassword : String}
    (h : advance s env (.signupCreate dto hashedPassword) = some (s', pc'))
    (hmem : dto.email ∈ s.users.rows.map User.email) :
    ∃ e, pc' = .done (.error e) ∧ e ≠ .ConflictException "User already exists" := by
  simp only [advance] at h
  cases hcreate : createUser s env dto hashedPassword with
  | ok p =>
    obtain ⟨user, users⟩ := p
    obtain ⟨rfl, husers⟩ := createUser_ok hcreate
    exact absurd hmem (Table.create_eq_some.1 husers).1
  | error e =>
    rw [hcreate] at h
    cases h
    refine ⟨e, rfl, ?_⟩
    rintro rfl
    unfold createUser at hcreate
    split at hcreate
    · cases hcreate
    · split_ifs at hcreate
      · cases hcreate
      · dsimp only at hcreate
        split_ifs at hcreate
        · cases hcreate
        · split at hcreate <;> cases hcreate

end Steps

theorem single_init : Single email (Sys.init cfg) where
  calls := fun _ h => absurd h List.not_mem_nil
  rows := fun _ h => absurd h List.not_mem_nil
  signups := rfl
  succeeded := rfl
  finished := fun _ h => absurd h List.not_mem_nil

/-- **Concurrent signups for one address end in one account and conflicts, all along a run, iff
each insert finds the address free.** -/
theorem oneAccount_iff (cfg : Config) (email : String) (es : List (Event cfg))
    (hes : Meets step (SignupsFor email) (Sys.init cfg) es) :
    (∀ s, Visits step (Sys.init cfg) es s → OneAccount email s) ↔
      Meets step Unclaimed (Sys.init cfg) es := by
  constructor
  · intro hall
    refine meets_of_visits fun s e s' hs hs' hstep => ?_
    cases e with
    | signup dto => trivial
    | signin dto => trivial
    | authenticate token now => trivial
    | resume i env =>
      intro pc hpc dto hdto hmem
      obtain ⟨pc₁, hpc₁, hstep⟩ := Option.bind_eq_some_iff.1 hstep
      obtain ⟨⟨s₁, pc'⟩, hadv, rfl⟩ := Option.map_eq_some_iff.1 hstep
      obtain rfl : pc = pc₁ := Option.some.inj (hpc.symm.trans hpc₁)
      cases pc with
      | signupCreate dto' hashedPassword =>
        obtain rfl : dto' = dto := Option.some.inj hdto
        obtain ⟨e, rfl, hne⟩ := advance_claimed hadv hmem
        have hin : Pc.done (.error e) ∈ s.ops.set i (.done (.error e)) :=
          List.mem_set (List.getElem?_eq_some_iff.1 hpc).1 _
        exact hne ((hall _ hs').conflicts e hin).1
      | _ => cases hdto
  · intro hmeets s hs
    have hkeep : ∀ (s : Sys cfg) (e : Event cfg) (s' : Sys cfg), Single email s →
        SignupsFor email s e ∧ Unclaimed s e → step s e = some s' → Single email s' :=
      fun s e s' hs he hstep => hs.step he.1 he.2 hstep
    exact (invariant_of_meets hkeep single_init (hes.and hmeets) s hs).oneAccount

end Accounts

/-! Two signups, one after the other and at once. -/

def rootSignup (password : JsString) (h : 8 ≤ validatorLength password.toWellFormed) :
    SignupDto (exampleConfig none) :=
  ⟨"root@example.com", password, none, none, by decide, h⟩

theorem password_valid : 8 ≤ validatorLength (JsString.ofString "password").toWellFormed := by
  decide

theorem passw0rd_valid : 8 ≤ validatorLength (JsString.ofString "passw0rd").toWellFormed := by
  decide

def signupsInTurn : List (Event (exampleConfig none)) :=
  [.signup (rootSignup "password" password_valid), .signup (rootSignup "passw0rd" passw0rd_valid),
    .resume 0 {}, .resume 0 {}, .resume 0 { id := "u0" }, .resume 1 {}]

theorem oneAccount_inTurn : ∃ s, run step (Sys.init _) signupsInTurn = some s ∧
    s.ops.length = 2 ∧ OneAccount "root@example.com" s := by
  have hrun : (run step (Sys.init _) signupsInTurn).map (fun s => s.ops.length) = some 2 := by
    decide
  obtain ⟨s, hs, hlen⟩ := Option.map_eq_some_iff.1 hrun
  exact ⟨s, hs, hlen, (oneAccount_iff _ "root@example.com" signupsInTurn (by decide)).2 (by decide)
    s (Visits.of_run hs)⟩

def signupsAtOnce : List (Event (exampleConfig none)) :=
  [.signup (rootSignup "password" password_valid), .signup (rootSignup "passw0rd" passw0rd_valid),
    .resume 0 {}, .resume 1 {}, .resume 0 {}, .resume 1 {}, .resume 0 { id := "u0" },
    .resume 1 { id := "u1" }]

/-- What the client of a call is told, if it has failed. -/
def Pc.told {cfg : Config} : Pc cfg → Option ErrorResponse
  | .done (.error e) => some (GlobalExceptionFilter.catch e.thrown)
  | _ => none

theorem Pc.told_eq_some {cfg : Config} {pc : Pc cfg} {r : ErrorResponse} (h : pc.told = some r) :
    ∃ e, pc = .done (.error e) ∧ GlobalExceptionFilter.catch e.thrown = r := by
  unfold Pc.told at h
  split at h
  · rename_i e
    exact ⟨e, rfl, Option.some.inj h⟩
  · cases h

theorem signupsAtOnce_not_oneAccount :
    ¬ ∀ (cfg : Config) (email : String) (es : List (Event cfg)),
      Meets step (SignupsFor email) (Sys.init cfg) es →
        ∀ s, Visits step (Sys.init cfg) es s → OneAccount email s := by
  intro h
  have hrun : (run step (Sys.init _) signupsAtOnce).map (fun s => s.ops.map Pc.told) =
      some [none, some ⟨false, INTERNAL_SERVER_ERROR, "Internal Server Error"⟩] := by decide
  obtain ⟨s, hs, htold⟩ := Visits.of_run_map hrun
  obtain ⟨pc, hpc, hpctold⟩ := List.mem_map.1 (htold ▸ List.mem_cons_of_mem _ List.mem_cons_self)
  obtain ⟨e, rfl, hcatch⟩ := Pc.told_eq_some hpctold
  have hconflict := ((h _ "root@example.com" signupsAtOnce (by decide) s hs).conflicts e hpc).2
  rw [hcatch] at hconflict
  cases hconflict

end ProtostarNest.Auth
