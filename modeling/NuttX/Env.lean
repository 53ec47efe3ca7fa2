import NuttX.Os

/-!
# Environment variables that cannot be changed

The environment of a task is one block of bytes: the strings `name=value`, each with its NUL, one
after the other. It is read here as the list of these strings, and a string as the list of its bytes
without the NUL. `setenv` and `unsetenv` search the block, close the gap of the string they remove,
and then ask for memory; whether `krealloc` or `kmalloc` gives it is an argument.

When it does not, the string has already left the block: `NuttX.env_failed` says which of the calls
that fail change nothing, and `NuttX.setenv_loses` is one that does.
-/

namespace NuttX

open List

/-- The bytes of a string, without its NUL. -/
abbrev CString := List UInt8

/-- The character `=`. -/
def equalSign : UInt8 := 61

/-- `env_cmpname`. Where the two strings end together, the loop runs past their ends. -/
def envCmpname : CString → CString → Os Bool
  | [], [] => .error .overrun
  | [], b :: _ => .ok (b == equalSign)
  | _ :: _, [] => .ok false
  | c :: pszname, b :: peqname => if c = b then envCmpname pszname peqname else .ok false

/-- The loop of `env_findvar`. -/
def findvarLoop (pname : CString) : List CString → Os (Option ℕ)
  | [] => .ok none
  | ptr :: env => do
    if ← envCmpname pname ptr then return some 0
    return (← findvarLoop pname env).map (· + 1)

/-- `env_findvar`: the place of the string in the block. -/
def envFindvar : Option (List CString) → Option CString → Os (Option ℕ)
  | some env, some pname => findvarLoop pname env
  | _, _ => .ok none

def envRemovevar (envp : Option (List CString)) (pvar : ℕ) : Option (List CString) :=
  envp.map (·.eraseIdx pvar)

/-- What stands after the first `=`. -/
def afterEqual : CString → Option CString
  | [] => none
  | c :: s => if c = equalSign then some s else afterEqual s

def getenv (envp : Option (List CString)) (name : Option CString) : Os (Option CString) := do
  let pvar ← envFindvar envp name
  return pvar.bind fun i => (envp.getD [])[i]?.bind afterEqual

def unsetenv (alloc : Bool) (envp : Option (List CString)) (name : Option CString) :
    Os (Status × Option (List CString)) :=
  match name with
  | none => .ok (.error, envp)
  | some name => do
    match ← envFindvar envp (some name) with
    | none => return (.ok, envp)
    | some pvar => return (if alloc then .ok else .error, envRemovevar envp pvar)

def setenv (alloc : Bool) (envp : Option (List CString)) (name value : Option CString)
    (overwrite : Bool) : Os (Status × Option (List CString)) :=
  match name, value.getD [] with
  | none, _ => .ok (.error, envp)
  | some name, [] => if overwrite then unsetenv alloc envp (some name) else .ok (.ok, envp)
  | some name, c :: value =>
    let add (envp : Option (List CString)) :=
      if alloc then (.ok, some (envp.getD [] ++ [name ++ equalSign :: c :: value]))
      else (.error, envp)
    do match ← envFindvar envp (some name) with
      | none => return add envp
      | some pvar => return if overwrite then add (envRemovevar envp pvar) else (.ok, envp)

/-! ### What is found -/

variable {name t r s : CString} {env : List CString} {envp envp' : Option (List CString)} {i : ℕ}

theorem envCmpname_true (h : envCmpname name t = .ok true) : ∃ r, t = name ++ equalSign :: r := by
  induction name generalizing t with
  | nil =>
    cases t with
    | nil => cases h
    | cons b t =>
      obtain rfl : b = equalSign := by simpa [envCmpname] using h
      exact ⟨t, rfl⟩
  | cons c name ih =>
    cases t with
    | nil => cases h
    | cons b t =>
      rw [envCmpname] at h
      split at h
      · rename_i hcb
        obtain ⟨r, rfl⟩ := ih h
        exact ⟨r, by rw [hcb]; rfl⟩
      · cases h

theorem findvarLoop_some (h : findvarLoop name env = .ok (some i)) :
    ∃ r, env[i]? = some (name ++ equalSign :: r) := by
  induction env generalizing i with
  | nil => cases h
  | cons t env ih =>
    obtain ⟨b, hb, h⟩ := bind_ok.mp h
    cases b with
    | true =>
      cases h
      obtain ⟨r, rfl⟩ := envCmpname_true hb
      exact ⟨r, rfl⟩
    | false =>
      obtain ⟨_ | j, hj, h⟩ := bind_ok.mp h
      · cases h
      · cases h
        exact ih hj

theorem afterEqual_ne_none : afterEqual (name ++ equalSign :: r) ≠ none := by
  induction name with
  | nil => simp [afterEqual]
  | cons c name ih =>
    rw [cons_append, afterEqual]
    split
    · simp
    · exact ih

theorem afterEqual_inj
    (h : afterEqual (name ++ equalSign :: r) = afterEqual (name ++ equalSign :: s)) : r = s := by
  induction name with
  | nil => simpa [afterEqual] using h
  | cons c name ih =>
    rw [cons_append, cons_append, afterEqual, afterEqual] at h
    split at h
    · simpa using h
    · exact ih h

theorem getenv_of_findvar {n : Option CString} (h : envFindvar envp n = .ok (some i)) :
    ∃ name r, n = some name ∧ (envp.getD [])[i]? = some (name ++ equalSign :: r) ∧
      getenv envp n = .ok (afterEqual (name ++ equalSign :: r)) := by
  cases n with
  | none => cases envp <;> cases h
  | some name =>
    cases envp with
    | none => cases h
    | some env =>
      obtain ⟨r, hr⟩ := findvarLoop_some h
      refine ⟨name, r, rfl, hr, ?_⟩
      rw [getenv, h, ok_bind, Option.bind_some, Option.getD_some, hr]
      rfl

/-! ### Calls that fail -/

section

variable {alloc overwrite : Bool} {n value : Option CString}

/-- Where a call of `setenv` fails, the string that it has found is gone. -/
theorem setenv_failed (h : setenv alloc envp n value overwrite = .ok (.error, envp')) :
    envFindvar envp n = .ok none ∧ envp' = envp ∨
      ∃ i, envFindvar envp n = .ok (some i) ∧ envp' = envRemovevar envp i := by
  unfold setenv at h
  split at h
  · cases h
    exact Or.inl ⟨by cases envp <;> rfl, rfl⟩
  · split at h
    · obtain ⟨_ | i, hfind, h⟩ := bind_ok.mp h
      · cases h
      · exact Or.inr ⟨i, hfind, (congrArg Prod.snd (Except.ok.inj h)).symm⟩
    · cases h
  · obtain ⟨_ | i, hfind, h⟩ := bind_ok.mp h
    · cases alloc <;> cases h
      exact Or.inl ⟨hfind, rfl⟩
    · cases overwrite <;> cases alloc <;> cases h
      exact Or.inr ⟨i, hfind, rfl⟩

/-- **A call of `setenv` or `unsetenv` that fails** changes no variable if it finds none of its
name. If it finds one, the variable is lost, unless its string stands in the block a second time. -/
theorem env_failed (h : setenv alloc envp n value overwrite = .ok (.error, envp') ∨
      unsetenv alloc envp n = .ok (.error, envp')) :
    (envFindvar envp n = .ok none → ∀ s, getenv envp' s = getenv envp s) ∧
      ((∀ s, getenv envp' s = getenv envp s) →
        envFindvar envp n = .ok none ∨ ¬(envp.getD []).Nodup) := by
  have hunset : unsetenv alloc envp n = setenv alloc envp n none true := by cases n <;> rfl
  rcases h.elim setenv_failed fun h => setenv_failed (hunset ▸ h) with
    ⟨hfind, rfl⟩ | ⟨i, hfind, rfl⟩
  · exact ⟨fun _ _ => rfl, fun _ => Or.inl hfind⟩
  refine ⟨fun h1 => absurd (hfind.symm.trans h1) nofun, fun hsame => Or.inr fun hnodup => ?_⟩
  obtain ⟨name, r, rfl, hr, hget⟩ := getenv_of_findvar hfind
  rw [← hsame] at hget
  obtain ⟨_ | j, hfind', hget'⟩ := bind_ok.mp hget
  · exact afterEqual_ne_none (Except.ok.inj hget').symm
  obtain ⟨_, u, ⟨⟩, hu, hget'⟩ := getenv_of_findvar hfind'
  -- the value has not changed, so that the string which is found now is the one that was removed
  obtain rfl := afterEqual_inj (Except.ok.inj (hget.symm.trans hget'))
  cases envp with
  | none => cases hr
  | some env =>
    obtain ⟨k, hki, hk⟩ := mem_eraseIdx_iff_getElem?.mp (mem_of_getElem? hu)
    exact hki ((getElem?_inj (List.getElem?_eq_some_iff.mp hk).1 hnodup).mp (hk.trans hr.symm))

theorem env_failed_set :
    setenv false (some [[65, 61, 49]]) (some [65]) (some [50]) true = .ok (.error, some []) ∧
      ¬∀ s, getenv (some []) s = getenv (some [[65, 61, 49]]) s := by
  have h : setenv false (some [[65, 61, 49]]) (some [65]) (some [50]) true =
    .ok (.error, some []) := rfl
  refine ⟨h, fun hsame => ?_⟩
  exact ((env_failed (Or.inl h)).2 hsame).elim nofun fun hdup => hdup (by decide)

/-- `A` is 1. There is no memory to make it 2, and then it is not set at all. -/
theorem setenv_loses :
    setenv false (some [[65, 61, 49]]) (some [65]) (some [50]) true = .ok (.error, some []) ∧
      getenv (some [[65, 61, 49]]) (some [65]) = .ok (some [49]) ∧
      getenv (some []) (some [65]) = .ok none :=
  ⟨rfl, rfl, rfl⟩

end

end NuttX
