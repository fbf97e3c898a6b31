import ProtostarNest.Auth.Service

/-!
# Administrators

A signup with the role `ADMIN` is let through when its `roleKey` equals the setting `ROLE_KEY`,
and two values that are both `undefined` are equal.

* `AdminsKeyed`: each administrator has supplied the configured key, and each request with
  administrator rights carries a token that was issued to such a user;
* `Guarded`: the invariant behind it, when `ROLE_KEY` is set and not empty;
* `adminsKeyed_iff`: the configurations for which it holds in all runs;
* `keyless_admin`: an administrator on a server without a `ROLE_KEY`.
-/

namespace ProtostarNest.Auth

open Transition

section Admins

variable {cfg : Config}

/-- The signup that created the user has supplied the configured key, which is not empty. -/
def Keyed (s : Sys cfg) (user : User) : Prop :=
  ∃ dto key, (user, dto) ∈ s.signups ∧ dto.roleKey = some (some key) ∧ key ≠ "" ∧
    cfg.ROLE_KEY = some key

structure AdminsKeyed (s : Sys cfg) : Prop where
  rows : ∀ user ∈ s.users.rows, user.role = .ADMIN → Keyed s user
  requests : ∀ a ∈ s.authenticated, a.2.role = "ADMIN" →
    ∃ user ∈ s.users.rows, (a.1, user.payload) ∈ s.issued ∧ user.role = .ADMIN ∧ Keyed s user

/-- A token that can be verified was issued with the payload that it has. -/
def Unforged (s : Sys cfg) : Event cfg → Prop
  | .authenticate token now => ∀ payload ∈ cfg.verify token now, (token, payload) ∈ s.issued
  | _ => True

instance (s : Sys cfg) : (e : Event cfg) → Decidable (Unforged s e)
  | .signup _ => instDecidableTrue
  | .signin _ => instDecidableTrue
  | .resume _ _ => instDecidableTrue
  | .authenticate token now => inferInstanceAs (Decidable (∀ payload ∈ cfg.verify token now, _))

/-- The signup whose role has been checked. -/
def Pc.checked : Pc cfg → Option (SignupDto cfg)
  | .signupHash dto => some dto
  | .signupCreate dto _ => some dto
  | _ => none

/-- The user whose password is about to be compared. -/
def Pc.found : Pc cfg → Option User
  | .signinCompare _ user => some user
  | _ => none

/-- The invariant for the setting `key`: what has passed the check of `signup` has supplied it, and
tokens are issued to users. -/
structure Guarded (key : String) (s : Sys cfg) : Prop where
  rows : ∀ user ∈ s.users.rows, user.role = .ADMIN →
    ∃ dto, (user, dto) ∈ s.signups ∧ dto.roleKey = some (some key)
  checked : ∀ pc ∈ s.ops, ∀ dto, pc.checked = some dto → dto.role = some (some .ADMIN) →
    dto.roleKey = some (some key)
  found : ∀ pc ∈ s.ops, ∀ user, pc.found = some user → user ∈ s.users.rows
  issued : ∀ p ∈ s.issued, ∃ user ∈ s.users.rows, p.2 = user.payload
  authenticated : ∀ a ∈ s.authenticated, ∃ payload, (a.1, payload) ∈ s.issued ∧
    a.2 = validate payload

theorem Role.text_eq_admin {role : Role} (h : role.text = "ADMIN") : role = .ADMIN := by
  cases role with
  | ADMIN => rfl
  | STARGAZER => exact absurd h (by decide)
  | PROTOSTAR => exact absurd h (by decide)

section Advance

variable {s s' : Sys cfg} {env : Env} {pc pc' : Pc cfg} {key : String}

/-- Users are never removed, and neither is what has happened. -/
theorem Advance.mono (h : Advance s env pc s' pc') :
    s.users.rows ⊆ s'.users.rows ∧ s.signups ⊆ s'.signups ∧ s.issued ⊆ s'.issued ∧
      s'.authenticated = s.authenticated := by
  cases h with
  | created dto hashedPassword role users hrole husers =>
    exact ⟨fun user huser => (Table.mem_create husers).2 (Or.inl huser), List.subset_cons_self _ _,
      List.Subset.refl _, rfl⟩
  | signedIn dto user =>
    exact ⟨List.Subset.refl _, List.Subset.refl _, List.subset_cons_self _ _, rfl⟩
  | _ => exact ⟨List.Subset.refl _, List.Subset.refl _, List.Subset.refl _, rfl⟩

theorem Advance.checked_key (h : Advance s env pc s' pc') (hkey : cfg.ROLE_KEY = some key)
    (hpc : ∀ dto, pc.checked = some dto → dto.role = some (some .ADMIN) →
      dto.roleKey = some (some key)) {dto : SignupDto cfg} (hdto : pc'.checked = some dto)
    (hrole : dto.role = some (some .ADMIN)) : dto.roleKey = some (some key) := by
  cases h with
  | checked dto' hkey' =>
    cases hdto
    rw [hkey' hrole, hkey, Option.map_some]
  | hashed dto' => cases hdto; exact hpc dto rfl hrole
  | _ => cases hdto

theorem Advance.found_mem (h : Advance s env pc s' pc') {user : User}
    (huser : pc'.found = some user) : user ∈ s.users.rows := by
  cases h with
  | found dto user' hrow => cases huser; exact hrow
  | _ => cases huser

/-- A row that a step creates with the role `ADMIN` comes from a signup that was checked. -/
theorem Advance.rows_keyed (h : Advance s env pc s' pc')
    (hrows : ∀ user ∈ s.users.rows, user.role = .ADMIN →
      ∃ dto, (user, dto) ∈ s.signups ∧ dto.roleKey = some (some key))
    (hpc : ∀ dto, pc.checked = some dto → dto.role = some (some .ADMIN) →
      dto.roleKey = some (some key)) {user : User} (huser : user ∈ s'.users.rows)
    (hrole : user.role = .ADMIN) :
    ∃ dto, (user, dto) ∈ s'.signups ∧ dto.roleKey = some (some key) := by
  cases h with
  | created dto hashedPassword role users hjoin husers =>
    rcases (Table.mem_create husers).1 huser with hold | rfl
    · obtain ⟨dto', hmem, hkey⟩ := hrows user hold hrole
      exact ⟨dto', List.mem_cons_of_mem _ hmem, hkey⟩
    · refine ⟨dto, List.mem_cons_self, hpc dto rfl ?_⟩
      -- the default role is not `ADMIN`
      subst hjoin
      rcases hdto : dto.role with _ | _ | role
      · simp [newUser, hdto] at hrole
      · simp [newUser, hdto] at hrole
      · simp only [newUser, hdto, Option.join_some, Option.getD_some] at hrole
        rw [hrole]
  | _ => exact hrows user huser hrole

theorem Advance.issued_payload (h : Advance s env pc s' pc')
    (hissued : ∀ p ∈ s.issued, ∃ user ∈ s.users.rows, p.2 = user.payload)
    (hpc : ∀ user, pc.found = some user → user ∈ s.users.rows) {p : String × JwtPayload}
    (hp : p ∈ s'.issued) : ∃ user ∈ s'.users.rows, p.2 = user.payload := by
  obtain ⟨hmono, -⟩ := h.mono
  cases h with
  | signedIn dto user =>
    rcases List.mem_cons.1 hp with rfl | hp
    · exact ⟨user, hpc user rfl, rfl⟩
    · exact hissued p hp
  | stop | checked | hashed | created | found =>
    obtain ⟨user, huser, heq⟩ := hissued p hp
    exact ⟨user, hmono huser, heq⟩

end Advance

theorem mem_set_cases {ops : List (Pc cfg)} {i : ℕ} {pc pc' : Pc cfg} (h : pc ∈ ops.set i pc') :
    pc = pc' ∨ pc ∈ ops :=
  (List.mem_or_eq_of_mem_set h).symm

/-- A new request has passed no check yet. -/
theorem Guarded.arrive {s : Sys cfg} {key : String} {pc : Pc cfg} (hs : Guarded key s)
    (hchecked : pc.checked = none) (hfound : pc.found = none) :
    Guarded key { s with ops := s.ops ++ [pc] } := by
  refine ⟨hs.rows, fun pc' hpc' dto hdto => ?_, fun pc' hpc' user huser => ?_, hs.issued,
    hs.authenticated⟩
  · rcases List.mem_append.1 hpc' with hpc' | hpc'
    · exact hs.checked pc' hpc' dto hdto
    · obtain rfl := List.mem_singleton.1 hpc'
      rw [hchecked] at hdto
      cases hdto
  · rcases List.mem_append.1 hpc' with hpc' | hpc'
    · exact hs.found pc' hpc' user huser
    · obtain rfl := List.mem_singleton.1 hpc'
      rw [hfound] at huser
      cases huser

theorem Guarded.step {s s' : Sys cfg} {e : Event cfg} {key : String} (hs : Guarded key s)
    (hkey : cfg.ROLE_KEY = some key) (hforged : Unforged s e) (h : step s e = some s') :
    Guarded key s' := by
  cases e with
  | signup dto =>
    obtain rfl := Option.some.inj h
    exact hs.arrive rfl rfl
  | signin dto =>
    obtain rfl := Option.some.inj h
    exact hs.arrive rfl rfl
  | resume i env =>
    obtain ⟨pc, hpc, h⟩ := Option.bind_eq_some_iff.1 h
    obtain ⟨⟨s₁, pc'⟩, hadv, rfl⟩ := Option.map_eq_some_iff.1 h
    have hadv := advance_sound hadv
    have hmem := List.mem_of_getElem? hpc
    obtain ⟨hrows, hsignups, hissued, hauth⟩ := hadv.mono
    refine ⟨fun user huser hrole => ?_, fun pc₁ hpc₁ dto hdto hrole => ?_,
      fun pc₁ hpc₁ user huser => ?_, fun p hp => ?_, fun a ha => ?_⟩
    · exact hadv.rows_keyed hs.rows (hs.checked pc hmem) huser hrole
    · rcases mem_set_cases hpc₁ with rfl | hpc₁
      · exact hadv.checked_key hkey (hs.checked pc hmem) hdto hrole
      · exact hs.checked pc₁ hpc₁ dto hdto hrole
    · rcases mem_set_cases hpc₁ with rfl | hpc₁
      · exact hrows (hadv.found_mem huser)
      · exact hrows (hs.found pc₁ hpc₁ user huser)
    · exact hadv.issued_payload hs.issued (hs.found pc hmem) hp
    · obtain ⟨payload, hpayload, heq⟩ := hs.authenticated a (hauth ▸ ha)
      exact ⟨payload, hissued hpayload, heq⟩
  | authenticate token now =>
    simp only [Auth.step] at h
    split at h
    · obtain rfl := Option.some.inj h
      exact hs
    · rename_i payload hverify
      obtain rfl := Option.some.inj h
      refine ⟨hs.rows, hs.checked, hs.found, hs.issued, fun a ha => ?_⟩
      rcases List.mem_cons.1 ha with rfl | ha
      · exact ⟨payload, hforged payload hverify, rfl⟩
      · exact hs.authenticated a ha

theorem guarded_init (key : String) : Guarded key (Sys.init cfg) where
  rows := fun _ h => absurd h List.not_mem_nil
  checked := fun _ h => absurd h List.not_mem_nil
  found := fun _ h => absurd h List.not_mem_nil
  issued := fun _ h => absurd h List.not_mem_nil
  authenticated := fun _ h => absurd h List.not_mem_nil

theorem Guarded.adminsKeyed {s : Sys cfg} {key : String} (hs : Guarded key s)
    (hkey : cfg.ROLE_KEY = some key) (hne : key ≠ "") : AdminsKeyed s := by
  have hrows : ∀ user ∈ s.users.rows, user.role = .ADMIN → Keyed s user := by
    intro user huser hrole
    obtain ⟨dto, hmem, hdto⟩ := hs.rows user huser hrole
    exact ⟨dto, key, hmem, hdto, hne, hkey⟩
  refine ⟨hrows, fun a ha hrole => ?_⟩
  obtain ⟨payload, hpayload, heq⟩ := hs.authenticated a ha
  obtain ⟨user, huser, rfl⟩ := hs.issued _ hpayload
  rw [heq] at hrole
  have hadmin : user.role = .ADMIN := Role.text_eq_admin hrole
  exact ⟨user, huser, hpayload, hadmin, hrows user huser hadmin⟩

/-! ### Configurations -/

/-- A signup as an administrator whose `roleKey` is what `ROLE_KEY` is, also when that is nothing,
and its steps. -/
def adminSignup (email : String) (hemail : cfg.isEmail email = true) : List (Event cfg) :=
  [.signup ⟨email, "password", some (some .ADMIN), cfg.ROLE_KEY.map some, hemail, by decide⟩,
    .resume 0 {}, .resume 0 { hash := "hash" }, .resume 0 { id := "u0" }]

theorem run_adminSignup (email : String) (hemail : cfg.isEmail email = true) :
    ∃ s, run step (Sys.init cfg) (adminSignup email hemail) = some s ∧
      ∃ user ∈ s.users.rows, user.role = .ADMIN := by
  simp [adminSignup, run_cons, step, Sys.init, advance, createUser, newUser, Table.findUnique,
    Table.empty, Table.create]

theorem unforged_adminSignup (email : String) (hemail : cfg.isEmail email = true) :
    Meets step Unforged (Sys.init cfg) (adminSignup email hemail) := by
  refine Meets.of_forall fun s e he => ?_
  simp only [adminSignup, List.mem_cons, List.not_mem_nil, or_false] at he
  rcases he with rfl | rfl | rfl | rfl <;> trivial

/-- **Administrator rights need the secret, in every run, iff `ROLE_KEY` is set and not empty.** -/
theorem adminsKeyed_iff (cfg : Config) (hmail : ∃ email, cfg.isEmail email = true) :
    (∀ es s, Meets step Unforged (Sys.init cfg) es → Visits step (Sys.init cfg) es s →
        AdminsKeyed s) ↔
      ∃ key, cfg.ROLE_KEY = some key ∧ key ≠ "" := by
  constructor
  · intro hall
    obtain ⟨email, hemail⟩ := hmail
    obtain ⟨s, hrun, user, huser, hrole⟩ := run_adminSignup email hemail
    obtain ⟨dto, key, -, -, hne, hkey⟩ :=
      (hall _ s (unforged_adminSignup email hemail) (Visits.of_run hrun)).rows user huser hrole
    exact ⟨key, hkey, hne⟩
  · rintro ⟨key, hkey, hne⟩ es s hes hs
    have hguarded : Guarded key s :=
      invariant_of_meets (fun _ _ _ hs hforged hstep => hs.step hkey hforged hstep)
        (guarded_init key) hes s hs
    exact hguarded.adminsKeyed hkey hne

end Admins

/-! Servers with and without a `ROLE_KEY`. -/

def rootPayload : JwtPayload := ⟨"u0", "root@example.com", "ADMIN"⟩

/-- A server that knows one address and accepts the token of its administrator. -/
def exampleConfig (ROLE_KEY : Option String) : Config where
  ROLE_KEY := ROLE_KEY
  isEmail email := email = "root@example.com"
  compare password hash := hash = "hash of " ++ password.toWellFormed
  sign payload now := payload.sub ++ " " ++ payload.role ++ " " ++ toString now
  verify token now := if token = "u0 ADMIN 1" ∧ now ≤ 3601 then some rootPayload else none

/-- The administrator signs up with the key, signs in and makes a request. -/
def rootRun : List (Event (exampleConfig (some "s3cret"))) :=
  [.signup ⟨"root@example.com", "password", some (some .ADMIN), some (some "s3cret"), by decide,
      by decide⟩,
    .resume 0 {}, .resume 0 { hash := "hash of password" }, .resume 0 { id := "u0" },
    .signin ⟨"root@example.com", "password", by decide, by decide⟩, .resume 1 {},
    .resume 1 { now := 1 }, .authenticate "u0 ADMIN 1" 60]

theorem adminsKeyed_rootRun : ∃ s, run step (Sys.init _) rootRun = some s ∧
    s.authenticated = [("u0 ADMIN 1", validate rootPayload)] ∧ AdminsKeyed s := by
  have hrun : (run step (Sys.init _) rootRun).map Sys.authenticated =
      some [("u0 ADMIN 1", validate rootPayload)] := by decide
  obtain ⟨s, hs, hauth⟩ := Option.map_eq_some_iff.1 hrun
  have hmail : ∃ email, (exampleConfig (some "s3cret")).isEmail email = true :=
    ⟨"root@example.com", by decide⟩
  exact ⟨s, hs, hauth, (adminsKeyed_iff _ hmail).2 ⟨"s3cret", rfl, by decide⟩ rootRun s (by decide)
    (Visits.of_run hs)⟩

/-- Without a `ROLE_KEY`, a signup that names no key makes an administrator. -/
theorem keyless_admin :
    ¬ ∀ (cfg : Config) (es : List (Event cfg)) (s : Sys cfg),
      Meets step Unforged (Sys.init cfg) es → Visits step (Sys.init cfg) es s →
        AdminsKeyed s := by
  intro h
  have hemail : (exampleConfig none).isEmail "root@example.com" = true := by decide
  obtain ⟨s, hrun, user, huser, hrole⟩ := run_adminSignup "root@example.com" hemail
  obtain ⟨dto, key, -, -, -, hkey⟩ :=
    (h _ _ s (unforged_adminSignup _ hemail) (Visits.of_run hrun)).rows user huser hrole
  cases hkey

end ProtostarNest.Auth
