import ProtostarNest.Auth.Accounts

/-!
# Passwords

bcrypt reads the first 72 bytes of a password in UTF-8, and `SignupDto` has no upper bound on its
length.  The conversion to UTF-8 reads U+FFFD for a lone surrogate.

* `consumed`: the bytes of a password that bcrypt reads;
* `consumed_eq_iff`, `exists_other`: the passwords that are told from all others by these bytes;
* `Hashes`: what a hash of a password is good for;
* `OnlyPassword`: which passwords sign in for an address, whatever other requests do meanwhile;
* `onlyPassword_iff`: only the password of the signup does so, iff it has less than 72 bytes and
  neither a lone surrogate nor U+FFFD.
-/

namespace ProtostarNest.Auth

open Transition

/-- The length that bcrypt cuts passwords to, in bytes. -/
def BCRYPT_MAX : ℕ := 72

def utf8 (password : JsString) : List UInt8 := password.toWellFormed.toByteArray.data.toList

def consumed (password : JsString) : List UInt8 := (utf8 password).take BCRYPT_MAX

/-- The bytes determine the password up to what stands for a lone surrogate. -/
theorem decode_of_utf8 {p q : JsString} (h : utf8 p = utf8 q) :
    Utf16.decode p = Utf16.decode q :=
  String.ofList_injective (String.toByteArray_inj.1 (ByteArray.ext (Array.toList_inj.1 h)))

/-- A password that bcrypt reads to the end and in which nothing stands for a lone surrogate is
told from all others. -/
theorem consumed_eq_iff {p q : JsString} (hp : (utf8 p).length < BCRYPT_MAX)
    (hread : Utf16.replacement ∉ Utf16.decode p) : consumed q = consumed p ↔ q = p := by
  constructor
  · intro h
    have hlen := congrArg List.length h
    simp only [consumed, List.length_take] at hlen
    have hq : (utf8 q).length < BCRYPT_MAX := by omega
    unfold consumed at h
    rw [List.take_of_length_le (Nat.le_of_lt hq), List.take_of_length_le (Nat.le_of_lt hp)] at h
    exact Utf16.decode_inj hread (decode_of_utf8 h)
  · rintro rfl
    rfl

theorem toWellFormed_append_x (p : JsString) :
    JsString.toWellFormed (p ++ [0x78]) = p.toWellFormed ++ "x" := by
  rw [JsString.toWellFormed, Utf16.decode_concat (by decide), String.ofList_append]
  rfl

/-- What comes after the bytes that bcrypt reads makes no difference. -/
theorem consumed_append_x {p : JsString} (hp : BCRYPT_MAX ≤ (utf8 p).length) :
    consumed (p ++ [0x78]) = consumed p := by
  have hsplit : utf8 (p ++ [0x78]) = utf8 p ++ [0x78] := by
    rw [utf8, toWellFormed_append_x, String.toByteArray_append, ByteArray.toList_data_append]
    rfl
  unfold consumed
  rw [hsplit, List.take_append_of_le_length hp]

theorem presentationSequences_append_x (l : List Char) :
    presentationSequences (l ++ ['x']) = presentationSequences l := by
  induction l with
  | nil => rfl
  | cons a l ih =>
    cases l with
    | nil => simp [presentationSequences]
    | cons b l => simpa [presentationSequences] using ih

/-- A longer password is still long enough. -/
theorem validatorLength_append_x {p : String} (hp : 8 ≤ validatorLength p) :
    8 ≤ validatorLength (p ++ "x") := by
  have hchars : (p ++ "x").toList = p.toList ++ ['x'] := String.toList_append
  unfold validatorLength at hp ⊢
  rw [hchars, presentationSequences_append_x, String.length_append]
  omega

/-- Another password that bcrypt takes for a long one. -/
theorem exists_longer {p : JsString} (hp : 8 ≤ validatorLength p.toWellFormed)
    (hlong : BCRYPT_MAX ≤ (utf8 p).length) :
    ∃ q : JsString, q ≠ p ∧ consumed q = consumed p ∧ 8 ≤ validatorLength q.toWellFormed := by
  refine ⟨p ++ [0x78], fun heq => ?_, consumed_append_x hlong, ?_⟩
  · exact List.cons_ne_nil _ _ (List.append_right_eq_self.1 heq)
  · rw [toWellFormed_append_x]
    exact validatorLength_append_x hp

/-- For any other password there is one that bcrypt takes for it. -/
theorem exists_other {p : JsString} (hp : 8 ≤ validatorLength p.toWellFormed)
    (h : ¬ ((utf8 p).length < BCRYPT_MAX ∧ Utf16.replacement ∉ Utf16.decode p)) :
    ∃ q : JsString, q ≠ p ∧ consumed q = consumed p ∧ 8 ≤ validatorLength q.toWellFormed := by
  by_cases hlong : BCRYPT_MAX ≤ (utf8 p).length
  · exact exists_longer hp hlong
  · have hread : Utf16.replacement ∈ Utf16.decode p := by_contra fun hno =>
      h ⟨Nat.not_le.1 hlong, hno⟩
    obtain ⟨q, hne, hdecode⟩ := Utf16.exists_decode_eq hread
    have hsame : JsString.toWellFormed q = p.toWellFormed := congrArg String.ofList hdecode
    refine ⟨q, hne, ?_, hsame ▸ hp⟩
    rw [consumed, utf8, hsame]
    rfl

example : consumed (JsString.ofString "password" ++ [0xD800]) =
    consumed (JsString.ofString "password" ++ [0xD801]) := by decide

section Passwords

variable {cfg : Config} {s s' : Sys cfg} {e : Event cfg}

/-- `hash` is a result of `bcrypt.hash` for the password: `bcrypt.compare` accepts exactly what
agrees with the password on the bytes that it reads. -/
def Hashes (cfg : Config) (password : JsString) (hash : String) : Prop :=
  ∀ q, cfg.compare q hash = true ↔ consumed q = consumed password

/-- No call that the request `n` awaits fails. -/
def Spares (n : ℕ) (_ : Sys cfg) : Event cfg → Prop
  | .resume i env => i = n → env.fail = none
  | _ => True

/-- Whatever else happens, an attempt to sign in for the address of the signup ends with a
session if and only if it is made with the password of the signup. -/
def OnlyPassword (s : Sys cfg) (dto : SignupDto cfg) : Prop :=
  ∀ (d : SigninDto cfg) (es : List (Event cfg)) (t : Sys cfg) (result : Except Exception Reply),
    d.email = dto.email → Meets step (Spares s.ops.length) s (.signin d :: es) →
      run step s (.signin d :: es) = some t → t.ops[s.ops.length]? = some (.done result) →
        ((∃ user accessToken, result = .ok (.session user accessToken)) ↔
          d.password = dto.password)

/-- The rows of the signups are in the table, under their addresses. -/
def SignupsStored (s : Sys cfg) : Prop :=
  ∀ p ∈ s.signups, p.1 ∈ s.users.rows ∧ p.1.email = p.2.email

theorem SignupsStored.step (hs : SignupsStored s) (h : step s e = some s') :
    SignupsStored s' := by
  cases e with
  | signup dto => cases h; exact hs
  | signin dto => cases h; exact hs
  | resume i env =>
    obtain ⟨pc, hpc, h⟩ := Option.bind_eq_some_iff.1 h
    obtain ⟨⟨s₁, pc'⟩, hadv, rfl⟩ := Option.map_eq_some_iff.1 h
    have hadv := advance_sound hadv
    have hold : ∀ p ∈ s.signups, p.1 ∈ s₁.users.rows ∧ p.1.email = p.2.email :=
      fun p hp => ⟨hadv.mono.1 (hs p hp).1, (hs p hp).2⟩
    cases hadv with
    | created dto hashedPassword role users hrole husers =>
      intro p hp
      rcases List.mem_cons.1 hp with rfl | hp
      · exact ⟨(Table.mem_create husers).2 (Or.inr rfl), rfl⟩
      · exact hold p hp
    | _ => exact hold
  | authenticate token now =>
    simp only [Auth.step] at h
    split at h <;> cases h <;> exact hs

theorem signupsStored_of_reachable (h : Reachable step (Sys.init cfg) s) : SignupsStored s :=
  invariant (fun _ _ _ hs hstep => hs.step hstep) (fun _ hp => absurd hp List.not_mem_nil) h

/-- Where an attempt to sign in as the user can be, and how it can have ended. -/
def Attempt (user : User) (d : SigninDto cfg) : Pc cfg → Prop
  | .signinFind d' => d' = d
  | .signinCompare d' user' => d' = d ∧ user' = user
  | .done result => (∃ u accessToken, result = .ok (.session u accessToken)) ↔
      cfg.compare d.password user.password = true
  | _ => False

/-- The user is there, and the request `n` is such an attempt. -/
structure Attempting (n : ℕ) (user : User) (d : SigninDto cfg) (s : Sys cfg) : Prop where
  row : user ∈ s.users.rows
  attempt : ∃ pc, s.ops[n]? = some pc ∧ Attempt user d pc

theorem Attempt.advance {env : Env} {pc pc' : Pc cfg} {user : User} {d : SigninDto cfg}
    (hpc : Attempt user d pc) (hrow : user ∈ s.users.rows) (hemail : d.email = user.email)
    (hfail : env.fail = none) (h : advance s env pc = some (s', pc')) : Attempt user d pc' := by
  cases pc with
  | signinFind d' =>
    obtain rfl : d' = d := hpc
    have hfind : s.users.findUnique d'.email = some user :=
      Table.findUnique_eq_some.2 ⟨hrow, hemail.symm⟩
    simp only [Auth.advance, hfail, hfind] at h
    cases h
    exact ⟨rfl, rfl⟩
  | signinCompare d' user' =>
    obtain ⟨rfl, rfl⟩ := hpc
    simp only [Auth.advance, hfail] at h
    split_ifs at h with hcompare
    · cases h
      show (∃ u accessToken, _ = _) ↔ _
      simp [hcompare]
    · cases h
      show (∃ u accessToken, _ = _) ↔ _
      simpa using hcompare
  | done result => cases h
  | _ => exact hpc.elim

theorem Attempting.step {n : ℕ} {user : User} {d : SigninDto cfg} (hs : Attempting n user d s)
    (hemail : d.email = user.email) (hspares : Spares n s e) (h : step s e = some s') :
    Attempting n user d s' := by
  obtain ⟨hrow, pc, hpc, hattempt⟩ := hs
  have hn := (List.getElem?_eq_some_iff.1 hpc).1
  cases e with
  | signup dto =>
    cases h
    exact ⟨hrow, pc, by rw [List.getElem?_append_left hn]; exact hpc, hattempt⟩
  | signin dto =>
    cases h
    exact ⟨hrow, pc, by rw [List.getElem?_append_left hn]; exact hpc, hattempt⟩
  | resume i env =>
    obtain ⟨pc₁, hpc₁, h⟩ := Option.bind_eq_some_iff.1 h
    obtain ⟨⟨s₁, pc'⟩, hadv, rfl⟩ := Option.map_eq_some_iff.1 h
    have hrow' := (advance_sound hadv).mono.1 hrow
    by_cases hi : i = n
    · subst hi
      obtain rfl : pc₁ = pc := Option.some.inj (hpc₁.symm.trans hpc)
      exact ⟨hrow', pc', List.getElem?_set_self hn,
        hattempt.advance hrow hemail (hspares rfl) hadv⟩
    · exact ⟨hrow', pc, by rw [List.getElem?_set_ne hi]; exact hpc, hattempt⟩
  | authenticate token now =>
    simp only [Auth.step] at h
    split at h <;> cases h <;> exact ⟨hrow, pc, hpc, hattempt⟩

/-- An attempt ends with a session if and only if the hash accepts its password. -/
theorem session_iff {user : User} {d : SigninDto cfg} {es : List (Event cfg)} {t : Sys cfg}
    {result : Except Exception Reply} (hrow : user ∈ s.users.rows)
    (hemail : d.email = user.email)
    (hspares : Meets step (Spares s.ops.length) s (.signin d :: es))
    (hrun : run step s (.signin d :: es) = some t)
    (hdone : t.ops[s.ops.length]? = some (.done result)) :
    (∃ u accessToken, result = .ok (.session u accessToken)) ↔
      cfg.compare d.password user.password = true := by
  obtain ⟨s₁, hs₁, hrun⟩ := (run_cons_eq_some step).1 hrun
  have hstart : Attempting s.ops.length user d s₁ := by
    cases hs₁
    exact ⟨hrow, .signinFind d, List.getElem?_concat_length, rfl⟩
  have hend : Attempting s.ops.length user d t :=
    invariant_of_meets (fun _ _ _ hs hspares hstep => hs.step hemail hspares hstep) hstart
      (hspares s₁ hs₁).2 t (Visits.of_run hrun)
  obtain ⟨-, pc, hpc, hattempt⟩ := hend
  obtain rfl : pc = .done result := Option.some.inj (hpc.symm.trans hdone)
  exact hattempt

/-- The attempt alone comes to its end. -/
theorem run_signin {user : User} {d : SigninDto cfg} (hrow : user ∈ s.users.rows)
    (hemail : d.email = user.email) : ∃ t result,
    run step s [.signin d, .resume s.ops.length {}, .resume s.ops.length {}] = some t ∧
      t.ops[s.ops.length]? = some (.done result) := by
  have hfind : s.users.findUnique d.email = some user :=
    Table.findUnique_eq_some.2 ⟨hrow, hemail.symm⟩
  by_cases hcompare : cfg.compare d.password user.password = true
  · simp [run_cons, Auth.step, Auth.advance, hfind, hcompare]
  · simp [run_cons, Auth.step, Auth.advance, hfind, hcompare, Pc.throw]

/-- Another password than that of the signup signs in, if bcrypt takes it for the first one. -/
theorem not_onlyPassword {user : User} {dto : SignupDto cfg} (hrow : user ∈ s.users.rows)
    (hemail : user.email = dto.email) (hhash : Hashes cfg dto.password user.password)
    (hother : ∃ q : JsString, q ≠ dto.password ∧ consumed q = consumed dto.password ∧
      8 ≤ validatorLength q.toWellFormed) : ¬ OnlyPassword s dto := by
  intro honly
  obtain ⟨q, hne, hconsumed, hvalid⟩ := hother
  let d : SigninDto cfg := ⟨dto.email, q, dto.email_valid, hvalid⟩
  obtain ⟨t, result, hrun, hdone⟩ := run_signin (d := d) hrow hemail.symm
  have hspares : Meets step (Spares s.ops.length) s
      [.signin d, .resume s.ops.length {}, .resume s.ops.length {}] := by
    refine Meets.of_forall fun s₁ e he => ?_
    simp only [List.mem_cons, List.not_mem_nil, or_false] at he
    rcases he with rfl | rfl | rfl
    · trivial
    · exact fun _ => rfl
    · exact fun _ => rfl
  have hcompare : cfg.compare d.password user.password = true := (hhash q).2 hconsumed
  exact hne ((honly d _ t result rfl hspares hrun hdone).1
    ((session_iff hrow hemail.symm hspares hrun hdone).2 hcompare))

/-- **After a signup, only its password signs in for its address, iff it has less than 72 bytes in
UTF-8 and neither a lone surrogate nor U+FFFD.** -/
theorem onlyPassword_iff (cfg : Config) (s : Sys cfg) (user : User) (dto : SignupDto cfg)
    (hreach : Reachable step (Sys.init cfg) s) (hsignup : (user, dto) ∈ s.signups)
    (hhash : Hashes cfg dto.password user.password) :
    OnlyPassword s dto ↔ (utf8 dto.password).length < BCRYPT_MAX ∧
      dto.password.IsWellFormed ∧ 0xFFFD ∉ dto.password := by
  obtain ⟨hrow, hemail⟩ := signupsStored_of_reachable hreach _ hsignup
  rw [← JsString.replacement_notMem]
  constructor
  · intro honly
    by_contra hbad
    exact not_onlyPassword hrow hemail hhash (exists_other dto.password_valid hbad) honly
  · rintro ⟨hshort, hread⟩ d es t result hd hspares hrun hdone
    rw [session_iff hrow (hd.trans hemail.symm) hspares hrun hdone, hhash]
    exact consumed_eq_iff hshort hread

end Passwords

/-! A server whose hashes are the bytes that are read, a signup with a short password and one with
a long one. -/

/-- The bytes as characters. -/
def hashOf (bytes : List UInt8) : String :=
  String.ofList (bytes.map fun b => Char.ofNat b.toNat)

theorem toNat_ofNat_byte (b : UInt8) : (Char.ofNat b.toNat).toNat = b.toNat := by
  have hb : b.toNat.isValidChar := Or.inl (by have := b.toNat_lt; omega)
  rw [Char.ofNat, dif_pos hb]
  rfl

theorem hashOf_inj {a b : List UInt8} (h : hashOf a = hashOf b) : a = b := by
  have hchars := congrArg String.toList h
  rw [hashOf, hashOf, String.toList_ofList, String.toList_ofList] at hchars
  refine List.map_injective_iff.2 (fun x y hxy => ?_) hchars
  have hnat := congrArg Char.toNat hxy
  rw [toNat_ofNat_byte, toNat_ofNat_byte] at hnat
  exact UInt8.toNat_inj.1 hnat

def bcryptConfig : Config where
  ROLE_KEY := none
  isEmail _ := true
  compare password hash := hashOf (consumed password) = hash
  sign payload now := payload.sub ++ " " ++ toString now
  verify _ _ := none

theorem hashes_bcryptConfig (password : JsString) :
    Hashes bcryptConfig password (hashOf (consumed password)) := by
  intro q
  show decide (hashOf (consumed q) = hashOf (consumed password)) = true ↔ _
  rw [decide_eq_true_iff]
  exact ⟨fun h => hashOf_inj h, fun h => h ▸ rfl⟩

def aliceSignup (password : JsString) (h : 8 ≤ validatorLength password.toWellFormed) :
    SignupDto bcryptConfig :=
  ⟨"alice@example.com", password, none, none, rfl, h⟩

/-- The row of that signup. -/
def aliceUser (password : JsString) : User :=
  ⟨"u0", "alice@example.com", hashOf (consumed password), none, .STARGAZER, 0⟩

/-- The server after that signup. -/
theorem exists_signedUp (password : JsString) (h : 8 ≤ validatorLength password.toWellFormed) :
    ∃ s, Reachable step (Sys.init bcryptConfig) s ∧
      (aliceUser password, aliceSignup password h) ∈ s.signups := by
  have hrun : ∃ s, run step (Sys.init bcryptConfig) [.signup (aliceSignup password h),
      .resume 0 {}, .resume 0 { hash := hashOf (consumed password) },
      .resume 0 { id := "u0" }] = some s ∧
        (aliceUser password, aliceSignup password h) ∈ s.signups := by
    simp [run_cons, step, Sys.init, advance, createUser, newUser, Table.findUnique, Table.empty,
      Table.create, aliceSignup, aliceUser]
  obtain ⟨s, hs, hmem⟩ := hrun
  exact ⟨s, ⟨_, hs⟩, hmem⟩

theorem onlyPassword_alice : ∃ s, Reachable step (Sys.init bcryptConfig) s ∧
    OnlyPassword s (aliceSignup "password" password_valid) := by
  obtain ⟨s, hs, hmem⟩ := exists_signedUp "password" password_valid
  exact ⟨s, hs, (onlyPassword_iff bcryptConfig s _ _ hs hmem (hashes_bcryptConfig "password")).2
    (by decide)⟩

def longPassword : String :=
  "correct horse battery staple correct horse battery staple correct horse!"

theorem longPassword_not_only :
    ¬ ∀ (cfg : Config) (s : Sys cfg) (user : User) (dto : SignupDto cfg),
      Reachable step (Sys.init cfg) s → (user, dto) ∈ s.signups →
        Hashes cfg dto.password user.password → OnlyPassword s dto := by
  intro h
  have hvalid : 8 ≤ validatorLength (JsString.ofString longPassword).toWellFormed := by
    rw [JsString.toWellFormed_ofString]
    decide
  have hlong : BCRYPT_MAX ≤ (utf8 longPassword).length := by
    rw [utf8, JsString.toWellFormed_ofString]
    decide
  obtain ⟨s, hs, hmem⟩ := exists_signedUp longPassword hvalid
  obtain ⟨hrow, hemail⟩ := signupsStored_of_reachable hs _ hmem
  exact not_onlyPassword hrow hemail (hashes_bcryptConfig longPassword)
    (exists_longer hvalid hlong) (h bcryptConfig s _ _ hs hmem (hashes_bcryptConfig longPassword))

end ProtostarNest.Auth
