import Mathlib.Data.List.TakeWhile
import ProtostarNest.Knowledge.Keys
import ProtostarNest.Lib.Separator

/-!
# The names of objects

`generateMinioKey` puts an object into the folder of its month, under a name of a uuid and the
name of the file.  The file name comes from the client.

* `basename_append_extname`: the two parts of a file name are the last component of its path;
* `readKey`: what a key says, and `readKey_generateMinioKey`: it says it for every file name;
* `uuids`: the uuids that a run draws;
* `keysApart_of_uuids`: as long as no uuid is drawn twice, no key is, so that no upload overwrites
  an object and no two documents share one.
-/

namespace ProtostarNest.Knowledge

open Transition

/-! ### Paths -/

theorem slash_notMem_lastComponent (p : List Char) : '/' ∉ lastComponent p := by
  intro h
  simpa using List.mem_takeWhile_imp (List.mem_reverse.1 h)

/-- The last component is a part of the path. -/
theorem length_lastComponent_le (p : List Char) : (lastComponent p).length ≤ p.length := by
  unfold lastComponent
  rw [List.length_reverse]
  calc _ ≤ (p.reverse.dropWhile (· = '/')).length := (List.takeWhile_sublist _).length_le
    _ ≤ p.reverse.length := (List.dropWhile_sublist _).length_le
    _ = p.length := List.length_reverse

/-- The last component ends as the path does, unless that is in a slash. -/
theorem suffix_lastComponent {x p : List Char} (hne : x ≠ []) (hx : '/' ∉ x) (h : x <:+ p) :
    x <:+ lastComponent p := by
  obtain ⟨q, rfl⟩ := h
  obtain ⟨c, l, hl⟩ := List.exists_cons_of_ne_nil (List.reverse_ne_nil_iff.2 hne)
  have hslash : ∀ d ∈ c :: l, d ≠ '/' := by
    rintro d hd rfl
    rw [← hl, List.mem_reverse] at hd
    exact hx hd
  refine ⟨(q.reverse.takeWhile (· ≠ '/')).reverse, ?_⟩
  have hdrop : (c :: l ++ q.reverse).dropWhile (· = '/') = c :: l ++ q.reverse :=
    List.dropWhile_cons_of_neg (by simpa using hslash c List.mem_cons_self)
  have htake : (c :: l ++ q.reverse).takeWhile (· ≠ '/') =
      c :: l ++ q.reverse.takeWhile (· ≠ '/') :=
    List.takeWhile_append_of_pos fun d hd => by simpa using hslash d hd
  unfold lastComponent
  rw [List.reverse_append, hl, hdrop, htake, List.reverse_append, ← hl, List.reverse_reverse]

/-- The extension is empty, or the end of the last component from its last dot on. -/
theorem extname_cases (p : String) :
    extname p = "" ∨ ∃ name after : List Char, name ≠ [] ∧
      lastComponent p.toList = name ++ '.' :: after ∧ extname p = String.ofList ('.' :: after) := by
  unfold extname
  dsimp only
  generalize lastComponent p.toList = base
  split_ifs with h
  · exact Or.inl rfl
  · obtain ⟨hdot, h⟩ := not_or.1 h
    obtain ⟨hlen, -⟩ := not_or.1 h
    obtain ⟨name, hsplit⟩ := Separator.exists_eq_takeWhile_append
      (List.mem_reverse.2 (not_not.1 hdot))
    have hbase : base = name.reverse ++ '.' :: (base.reverse.takeWhile (· ≠ '.')).reverse := by
      conv_lhs => rw [← List.reverse_reverse base, hsplit]
      simp
    refine Or.inr ⟨name.reverse, _, fun hnil => hlen ?_, hbase, rfl⟩
    conv_rhs => rw [hbase, hnil]
    simp

/-- **`basename` and `extname` split the last component of the path.** -/
theorem basename_append_extname (p : String) :
    (basename p (extname p)).toList ++ (extname p).toList = lastComponent p.toList := by
  rcases extname_cases p with hext | ⟨name, after, hname, hbase, hext⟩
  · rw [hext, basename]
    split_ifs with hp hsuffix
    · rw [← hp]
      rfl
    · simp
    · simp
  · have hp : extname p ≠ p := by
      intro heq
      have hlen := length_lastComponent_le p.toList
      have hpos := List.length_pos_iff.2 hname
      have hpath : p.toList = '.' :: after := by rw [← heq, hext, String.toList_ofList]
      rw [hbase, hpath, List.length_append] at hlen
      omega
    have hsuffix : ('.' :: after) <:+ lastComponent p.toList ∧
        '.' :: after ≠ lastComponent p.toList := by
      rw [hbase]
      exact ⟨List.suffix_append _ _, fun heq => hname (by simpa using congrArg List.length heq)⟩
    simp only [basename, if_neg hp]
    rw [hext, String.toList_ofList, if_pos hsuffix, String.toList_ofList, hbase]
    simp

/-! ### Keys -/

/-- What an object key says: the month, from 0 on, the uuid and the name of the file. -/
structure KeyParts where
  year : ℕ
  month : ℕ
  uuid : String
  name : String
  deriving DecidableEq

/-- The parts of a key. -/
def readKey (key : String) : Option KeyParts :=
  match key.toList.splitOn '/' with
  | [year, month, name] =>
      some
        { year := Nat.ofDigitChars 10 year 0
          month := Nat.ofDigitChars 10 month 0 - 1
          uuid := String.ofList (name.takeWhile (· ≠ '_'))
          name := String.ofList (name.drop ((name.takeWhile (· ≠ '_')).length + 1)) }
  | _ => none

/-- A uuid has neither of the two separators in it. -/
def IsUuid (uuid : String) : Prop := '/' ∉ uuid.toList ∧ '_' ∉ uuid.toList

instance (uuid : String) : Decidable (IsUuid uuid) := inferInstanceAs (Decidable (_ ∧ _))

theorem toList_toString (n : ℕ) : (toString n).toList = Nat.toDigits 10 n := by
  rw [Nat.toString_eq_ofList_toDigits, String.toList_ofList]

theorem slash_notMem_toDigits (n : ℕ) : '/' ∉ Nat.toDigits 10 n := by
  intro h
  have hdigit := Nat.isDigit_of_mem_toDigits (by decide) (by decide) h
  exact absurd hdigit (by decide)

theorem padStart2_cases (n : ℕ) : (padStart2 n).toList = Nat.toDigits 10 n ∨
    (padStart2 n).toList = '0' :: Nat.toDigits 10 n := by
  unfold padStart2
  split_ifs
  · exact Or.inr (by rw [String.toList_append, toList_toString]; rfl)
  · exact Or.inl (toList_toString n)

theorem slash_notMem_padStart2 (n : ℕ) : '/' ∉ (padStart2 n).toList := by
  rcases padStart2_cases n with h | h
  · rw [h]
    exact slash_notMem_toDigits n
  · rw [h]
    exact fun hmem => slash_notMem_toDigits n ((List.mem_cons.1 hmem).resolve_left (by decide))

theorem ofDigitChars_padStart2 (n : ℕ) : Nat.ofDigitChars 10 (padStart2 n).toList 0 = n := by
  rcases padStart2_cases n with h | h
  · rw [h, Nat.ofDigitChars_ten_toDigits]
  · rw [h, Nat.ofDigitChars_cons]
    exact Nat.ofDigitChars_ten_toDigits

theorem toList_generateMinioKey (env : Env) (filename : String) :
    (generateMinioKey env filename).toList = Nat.toDigits 10 env.year ++ '/' ::
      ((padStart2 (env.month + 1)).toList ++ '/' ::
        (env.uuid.toList ++ '_' :: lastComponent filename.toList)) := by
  rw [← basename_append_extname, ← toList_toString]
  simp [generateMinioKey, String.toList_append]

/-- **A key has three path components, whatever the name of the file**: it stays in the folder of
its month. -/
theorem splitOn_generateMinioKey (env : Env) (filename : String) (huuid : IsUuid env.uuid) :
    (generateMinioKey env filename).toList.splitOn '/' =
      [Nat.toDigits 10 env.year, (padStart2 (env.month + 1)).toList,
        env.uuid.toList ++ '_' :: lastComponent filename.toList] := by
  have hname : '/' ∉ env.uuid.toList ++ '_' :: lastComponent filename.toList := by
    intro hmem
    rcases List.mem_append.1 hmem with hmem | hmem
    · exact huuid.1 hmem
    · exact slash_notMem_lastComponent _ ((List.mem_cons.1 hmem).resolve_left (by decide))
  rw [toList_generateMinioKey, Separator.splitOn_append_cons (slash_notMem_toDigits _),
    Separator.splitOn_append_cons (slash_notMem_padStart2 _), Separator.splitOn_of_notMem hname]

/-- The key ends as the name of the file does. -/
theorem suffix_generateMinioKey {x : List Char} (hne : x ≠ []) (hx : '/' ∉ x) {filename : String}
    (h : x <:+ filename.toList) (env : Env) : x <:+ (generateMinioKey env filename).toList := by
  obtain ⟨q, hq⟩ := suffix_lastComponent hne hx h
  rw [toList_generateMinioKey, ← hq]
  refine ⟨Nat.toDigits 10 env.year ++ '/' :: ((padStart2 (env.month + 1)).toList ++ '/' ::
    (env.uuid.toList ++ '_' :: q)), ?_⟩
  simp

/-- What is read of three path components of which the last begins with a uuid. -/
theorem readKey_of_splitOn {key uuid : String} {year month : ℕ} {name : List Char}
    (hkey : key.toList.splitOn '/' = [Nat.toDigits 10 year, (padStart2 (month + 1)).toList,
      uuid.toList ++ '_' :: name]) (huuid : IsUuid uuid) :
    readKey key = some ⟨year, month, uuid, String.ofList name⟩ := by
  unfold readKey
  rw [hkey]
  simp only [Separator.takeWhile_append_cons huuid.2, Nat.ofDigitChars_ten_toDigits,
    ofDigitChars_padStart2, String.ofList_toList, Nat.add_sub_cancel]
  simp

/-- The uuid is read back. -/
theorem exists_readKey {env : Env} (huuid : IsUuid env.uuid) (filename : String) :
    ∃ parts, readKey (generateMinioKey env filename) = some parts ∧ parts.uuid = env.uuid :=
  ⟨_, readKey_of_splitOn (splitOn_generateMinioKey env filename huuid) huuid, rfl⟩

/-- **The parts of a key can be read back.** -/
theorem readKey_generateMinioKey (env : Env) (filename : String) (huuid : IsUuid env.uuid) :
    readKey (generateMinioKey env filename) =
      some ⟨env.year, env.month, env.uuid, String.ofList (lastComponent filename.toList)⟩ :=
  readKey_of_splitOn (splitOn_generateMinioKey env filename huuid) huuid

/-- A file name that asks for the object of another one. -/
theorem readKey_sneaky :
    readKey (generateMinioKey { uuid := "k1" } "../../2025/01/k0_notes.txt") =
      some ⟨2025, 0, "k1", "k0_notes.txt"⟩ :=
  (readKey_generateMinioKey { uuid := "k1" } "../../2025/01/k0_notes.txt" (by decide)).trans
    (by decide)

/-! ### Runs -/

/-- The uuid that a step draws for the key of an object. -/
def drawn (s : Sys) : Event → List String
  | .resume i env => if ((s.pc? i).bind Pc.storing).isSome then [env.uuid] else []
  | .request _ => []

/-- The uuids that a run draws. -/
def uuids (cfg : Config) : Sys → List Event → List String
  | _, [] => []
  | s, e :: es =>
      match step cfg s e with
      | none => []
      | some t => drawn s e ++ uuids cfg t es

/-- Each key was generated with one of these uuids. -/
def Named (us : List String) (w : World) : Prop :=
  ∀ k ∈ w.puts.map Prod.fst, ∃ parts, readKey k = some parts ∧ parts.uuid ∈ us

/-- Each object that is there was uploaded. -/
def Uploaded (w : World) : Prop := ∀ k, w.objects k ≠ none → k ∈ w.puts.map Prod.fst

/-- In no state of the run do two documents name the same object, and no upload of the run meets an
object under its key. -/
structure KeysApart (cfg : Config) (es : List Event) : Prop where
  rows : ∀ t, Visits (step cfg) (Sys.boot World.empty) es t →
    (t.world.docs.rows.map KnowledgeDoc.minioKey).Nodup
  objects : ∀ pre i env post t t' pc file, es = pre ++ .resume i env :: post →
    run (step cfg) (Sys.boot World.empty) pre = some t → step cfg t (.resume i env) = some t' →
    t.pc? i = some pc → pc.storing = some file →
      t.world.objects (generateMinioKey env file.originalname) = none

section Run

variable {cfg : Config} {s s' : Sys} {e : Event} {es : List Event} {us : List String}

theorem Uploaded.putObject {w : World} (hw : Uploaded w) (file : MulterFile) (key : String) :
    Uploaded (w.putObject file key) := by
  intro k hk
  by_cases hkey : k = key
  · exact hkey ▸ List.mem_cons_self
  · exact List.mem_cons_of_mem _ (hw k (by simpa [World.putObject, hkey] using hk))

theorem Uploaded.removeObject {w : World} (hw : Uploaded w) (key : String) :
    Uploaded (w.removeObject key) := by
  intro k hk
  by_cases hkey : k = key
  · simp [World.removeObject, hkey] at hk
  · exact hw k (by simpa [World.removeObject, hkey] using hk)

theorem Uploaded.advance {w w' : World} {env : Env} {pc pc' : Pc} (hw : Uploaded w)
    (h : Advance cfg w env pc w' pc') : Uploaded w' := by
  cases h with
  | stored user file hfail => exact hw.putObject _ _
  | replaceStored user title file doc hfail => exact hw.putObject _ _
  | oldDeleted user title file doc minioKey hfail => exact hw.removeObject _
  | objectDeleted user doc hfail => exact hw.removeObject _
  | _ => exact hw

theorem Uploaded.step (hs : Uploaded s.world) (h : step cfg s e = some s') : Uploaded s'.world :=
  world_step hs h fun _ _ _ _ _ _ hc => hs.advance hc.advance

theorem drawn_of_storing {i : ℕ} {env : Env} {pc : Pc} {file : MulterFile}
    (hpc : s.pc? i = some pc) (hfile : pc.storing = some file) :
    drawn s (.resume i env) = [env.uuid] := by
  simp [drawn, hpc, hfile]

theorem Named.mono {w : World} (hw : Named us w) (vs : List String) : Named (us ++ vs) w :=
  fun k hk => (hw k hk).imp fun _ hp => ⟨hp.1, List.mem_append_left _ hp.2⟩

theorem Named.step (hs : Named us s.world) (huuid : ∀ u ∈ drawn s e, IsUuid u)
    (h : step cfg s e = some s') : Named (us ++ drawn s e) s'.world := by
  rcases step_quiet_or_calls h with hq | ⟨i, env, op, w, pc, rfl, hc⟩
  · rw [hq.world]
    exact hs.mono _
  · rw [hc.world]
    intro k hk
    cases hc.advance.keys with
    | keep hputs => exact hs.mono _ k (hputs ▸ hk)
    | publish p id hheld hputs => exact hs.mono _ k (hputs ▸ hk)
    | put file hstoring hputs =>
      rw [hputs] at hk
      rcases List.mem_cons.1 hk with rfl | hk
      · have hdrawn : drawn s (.resume i env) = [env.uuid] :=
          drawn_of_storing (s.pc?_of_getElem? hc.op_eq) hstoring
        rw [hdrawn] at huuid ⊢
        obtain ⟨parts, hread, hparts⟩ :=
          exists_readKey (huuid env.uuid (by simp)) file.originalname
        exact ⟨parts, hread, by simp [hparts]⟩
      · exact hs.mono _ k hk

/-- A new uuid makes a new key. -/
theorem Named.freshKey (hs : Named us s.world) (huuid : ∀ u ∈ drawn s e, IsUuid u ∧ u ∉ us) :
    FreshKey s e := by
  cases e with
  | request r => trivial
  | resume i env =>
    intro pc hpc file hfile hmem
    rw [drawn_of_storing hpc hfile] at huuid
    obtain ⟨hproper, hnew⟩ := huuid env.uuid (by simp)
    obtain ⟨parts, hread, hold⟩ := hs _ hmem
    obtain ⟨parts', hread', hparts⟩ := exists_readKey hproper file.originalname
    obtain rfl := Option.some.inj (hread'.symm.trans hread)
    exact hnew (hparts ▸ hold)

/-- No key is generated twice when no uuid is drawn twice. -/
theorem freshKey_of_uuids (hs : Named us s.world) (hproper : ∀ u ∈ uuids cfg s es, IsUuid u)
    (hnodup : (us ++ uuids cfg s es).Nodup) : Meets (step cfg) FreshKey s es := by
  induction es generalizing s us with
  | nil => trivial
  | cons e es ih =>
    intro t ht
    have huuids : uuids cfg s (e :: es) = drawn s e ++ uuids cfg t es := by simp only [uuids, ht]
    rw [huuids] at hproper hnodup
    rw [← List.append_assoc] at hnodup
    have hdrawn : ∀ u ∈ drawn s e, IsUuid u := fun u hu => hproper u (List.mem_append_left _ hu)
    refine ⟨hs.freshKey fun u hu => ⟨hdrawn u hu, fun hold => ?_⟩, ?_⟩
    · exact (List.nodup_append.1 (List.nodup_append.1 hnodup).1).2.2 u hold u hu rfl
    · exact ih (hs.step hdrawn ht) (fun u hu => hproper u (List.mem_append_right _ hu)) hnodup

/-- No two documents name the same object. -/
theorem Keyed.minioKey_nodup (hs : Keyed s) :
    (s.world.docs.rows.map KnowledgeDoc.minioKey).Nodup := by
  refine List.Nodup.map_on (fun d hd d' hd' hkey => ?_) (s.world.docs.nodup.of_map _)
  refine Table.eq_of_key hd hd' (hs.eq_of_published (hs.row_published d hd) ?_)
  rw [hkey]
  exact hs.row_published d' hd'

/-- **As long as uuids are not repeated, no upload overwrites an object and no two documents share
one**, whatever file names the clients choose. -/
theorem keysApart_of_uuids (cfg : Config) (es : List Event)
    (hproper : ∀ u ∈ uuids cfg (Sys.boot World.empty) es, IsUuid u)
    (hnodup : (uuids cfg (Sys.boot World.empty) es).Nodup) : KeysApart cfg es := by
  have hnone : Named [] (Sys.boot World.empty).world := fun k hk => absurd hk List.not_mem_nil
  have hmeets : Meets (step cfg) FreshKey (Sys.boot World.empty) es :=
    freshKey_of_uuids hnone hproper hnodup
  refine ⟨fun t ht => ?_, ?_⟩
  · exact (invariant_of_meets (fun s e t hs he => hs.step he) keyed_boot hmeets t ht).minioKey_nodup
  · rintro pre i env post t t' pc file rfl hrun ht' hpc hfile
    have hfresh := ((hmeets.of_run hrun) t' ht').1 pc hpc file hfile
    have hkeep : ∀ (s : Sys) (e : Event) (t : Sys), Uploaded s.world → step cfg s e = some t →
        Uploaded t.world := fun _ _ _ hs h => hs.step h
    have huploaded : Uploaded t.world := invariant hkeep (fun k hk => absurd rfl hk) ⟨pre, hrun⟩
    exact not_not.1 fun hne => hfresh (huploaded _ hne)

end Run

def sneakyFile : MulterFile := ⟨"../../2025/01/k0_notes.txt", "text/plain", [3], 1⟩

def sneakyRun : List Event :=
  uploadRun ++ [.request (.uploadFiles ⟨"bob"⟩ [sneakyFile]), .resume 2 {}, .resume 2 {},
    .resume 3 { uuid := "k1" }, .resume 3 { id := "d1" }, .resume 3 {}]

theorem keysApart_sneakyRun : KeysApart exampleConfig sneakyRun :=
  keysApart_of_uuids exampleConfig sneakyRun (by decide +kernel) (by decide +kernel)

end ProtostarNest.Knowledge
