import T4.Lib.Text
import Mathlib.Logic.Function.Basic

/-!
# Updates of the authentication state

`etcd/auth/store.go` and `etcd/auth/types.go`: the users, the roles and the enabled flag that
`auth.Store` caches. `getUser` and `getRole` return a copy whose slice has the same array as
the cached one, and some updates write to that array before the node stores the record.

A cached slice is modelled by its elements. What `append` writes behind them in the array is
not an element of the cached slice and is left out.
-/

namespace T4.Etcd

open Lib Bytes Text List

/-! ## Users and roles -/

/-- `authpb.Permission_Type`. -/
inductive PermType
  | read
  | write
  | readwrite
  | unrecognized (number : Int)
  deriving DecidableEq

structure Permission where
  key : Bytes
  rangeEnd : Bytes := []
  permType : PermType
  deriving DecidableEq

/-- The entry that a grant or a revocation of this range is about. -/
def Permission.isFor (p : Permission) (key rangeEnd : Bytes) : Bool :=
  p.key = key ∧ p.rangeEnd = rangeEnd

def permIncludes (granted want : PermType) : Bool := granted = .readwrite ∨ granted = want

def Permission.covers (p : Permission) (key : Bytes) (pt : PermType) : Bool :=
  if !permIncludes p.permType pt then false
  else if p.rangeEnd = [] then key = p.key
  else if p.rangeEnd = [0] then key ≥ p.key
  else key ≥ p.key ∧ key < p.rangeEnd

structure Role where
  name : Bytes
  permissions : List Permission := []
  deriving DecidableEq

def rootRole : Bytes := ascii "root"

def rootUser : Bytes := ascii "root"

def Role.hasPermission (r : Role) (key : Bytes) (pt : PermType) : Bool :=
  r.name = rootRole ∨ r.permissions.any (fun p => p.covers key pt)

structure User where
  name : Bytes
  passwordHash : Bytes := []
  roles : List Bytes := []
  deriving DecidableEq

def User.hasRole (u : User) (roleName : Bytes) : Bool := u.roles.any (· = roleName)

def enabledKey : Bytes := 0 :: ascii "auth/enabled"

def usersPrefix : Bytes := 0 :: ascii "auth/users/"

def rolesPrefix : Bytes := 0 :: ascii "auth/roles/"

/-! ## Filtering a slice in its own array -/

section Filter

variable {α : Type} (keep : α → Bool)

/-- One pass of the loop: the array, and the length of the slice that is appended to. -/
def filterStep (state : List α × Nat) (i : Nat) : List α × Nat :=
  match state.1[i]? with
  | some x => if keep x then (state.1.set state.2 x, state.2 + 1) else state
  | none => state

/-- `kept := xs[:0]` and the loop over `xs` that appends to it what is kept: the array of `xs`
afterwards, and the length of `kept`. -/
def filterInPlace (xs : List α) : List α × Nat :=
  (List.range xs.length).foldl (filterStep keep) (xs, 0)

theorem foldl_filterStep (xs : List α) {i : Nat} (le : i ≤ xs.length) :
    (List.range i).foldl (filterStep keep) (xs, 0) =
      ((xs.take i).filter keep ++ xs.drop ((xs.take i).filter keep).length,
        ((xs.take i).filter keep).length) := by
  induction i with
  | zero => simp
  | succ i ih =>
    have short : ((xs.take i).filter keep).length ≤ i :=
      (length_filter_le _ _).trans (length_take_le i xs)
    have here : xs[i]? = some xs[i] := getElem?_eq_getElem le
    have next : xs.take (i + 1) = xs.take i ++ [xs[i]] := (take_append_getElem le).symm
    rw [range_succ, foldl_append, ih (by omega), next, filter_append]
    generalize (xs.take i).filter keep = kept at short
    simp only [foldl_cons, foldl_nil, filterStep,
      getElem?_append_right short, getElem?_drop, Nat.add_sub_cancel' short, here]
    cases keepIt : keep xs[i] with
    | false => simp [keepIt]
    | true =>
      rw [set_append_right _ _ le_rfl, Nat.sub_self,
        drop_eq_getElem_cons (by omega : kept.length < xs.length), set_cons_zero]
      simp [keepIt]

theorem filterInPlace_eq (xs : List α) :
    filterInPlace keep xs =
      (xs.filter keep ++ xs.drop (xs.filter keep).length, (xs.filter keep).length) := by
  rw [filterInPlace, foldl_filterStep keep xs le_rfl, take_length]

/-- The array is as before exactly when nothing that is kept follows what is dropped. -/
theorem filterInPlace_same_iff (xs : List α) :
    (filterInPlace keep xs).1 = xs ↔ xs.Pairwise (fun a b => keep b → keep a) := by
  rw [filterInPlace_eq, ← prefix_iff_eq_append]
  induction xs with
  | nil => simp
  | cons x xs ih =>
    cases keepIt : keep x with
    | true => simp [keepIt, ih]
    | false =>
      rw [filter_cons_of_neg (by simp [keepIt]), pairwise_cons]
      constructor
      · intro isPrefix
        -- A kept element would stand where `x` is.
        have none_ : xs.filter keep = [] := by
          cases found : xs.filter keep with
          | nil => rfl
          | cons y ys =>
            rw [found, cons_prefix_cons] at isPrefix
            have kept : keep y := (mem_filter.mp (found ▸ mem_cons_self)).2
            rw [isPrefix.1, keepIt] at kept
            cases kept
        have dropped := filter_eq_nil_iff.mp none_
        exact ⟨fun b mem kept => absurd kept (dropped b mem),
          ih.mp (none_ ▸ nil_prefix)⟩
      · rintro ⟨first, -⟩
        rw [filter_eq_nil_iff.mpr fun b mem kept => by simpa [keepIt] using first b mem kept]
        exact nil_prefix

end Filter

/-! ## The store -/

@[ext]
structure AuthStore where
  enabled : Bool := false
  users : Bytes → Option User := fun _ => none
  roles : Bytes → Option Role := fun _ => none

inductive PermissionError
  | userNotFound (name : Bytes)
  | denied
  deriving DecidableEq

def AuthStore.checkPermission (s : AuthStore) (userName key : Bytes) (pt : PermType) :
    Except PermissionError Unit :=
  if !s.enabled then .ok ()
  else
    match s.users userName with
    | none => .error (.userNotFound userName)
    | some u =>
      -- A role that does not exist is skipped.
      if u.roles.any (fun roleName => (s.roles roleName).any (·.hasPermission key pt)) then .ok ()
      else .error .denied

inductive AuthError
  | rootUserMissing
  | rootUserInUse
  | rootRoleInUse
  | userNotFound (name : Bytes)
  | roleNotFound (name : Bytes)
  | hashPassword
  /-- The node's error; `createRootRole` wraps it. -/
  | write (createRootRole : Bool)
  deriving DecidableEq

inductive AuthCall
  | enable
  | disable
  | putUser (u : User) (plainPassword : Bytes)
  | deleteUser (name : Bytes)
  | grantRole (userName roleName : Bytes)
  | revokeRole (userName roleName : Bytes)
  | putRole (r : Role)
  | deleteRole (name : Bytes)
  | grantPermission (roleName : Bytes) (p : Permission)
  | revokePermission (roleName key rangeEnd : Bytes)

namespace AuthStore

section

variable (hash : Bytes → Option Bytes) (writes : Bytes → Bool) (s : AuthStore)

/-- A write of the node, and the update of the cache that follows it if it succeeds. -/
def writeThrough (key : Bytes) (next : AuthStore) : AuthStore × Option AuthError :=
  if writes key then (next, none) else (s, some (.write false))

def setEnabled (on : Bool) : AuthStore × Option AuthError :=
  s.writeThrough writes enabledKey { s with enabled := on }

def putUser (u : User) : AuthStore × Option AuthError :=
  s.writeThrough writes (usersPrefix ++ u.name)
    { s with users := Function.update s.users u.name (some u) }

def putRole (r : Role) : AuthStore × Option AuthError :=
  s.writeThrough writes (rolesPrefix ++ r.name)
    { s with roles := Function.update s.roles r.name (some r) }

/-- What a write to the array of a user's `Roles` does to the cached user. -/
def shareRoles (name : Bytes) (u : User) (array : List Bytes) : AuthStore :=
  { s with users := Function.update s.users name (some { u with roles := array }) }

/-- What a write to the array of a role's `Permissions` does to the cached role. -/
def sharePermissions (name : Bytes) (r : Role) (array : List Permission) : AuthStore :=
  { s with roles := Function.update s.roles name (some { r with permissions := array }) }

def enable : AuthStore × Option AuthError :=
  if s.enabled then (s, none)
  else if (s.users rootUser).isNone then (s, some .rootUserMissing)
  else if (s.roles rootRole).isSome then s.setEnabled writes true
  else
    match s.putRole writes { name := rootRole } with
    | (s, some _) => (s, some (.write true))
    | (s, none) => s.setEnabled writes true

/-- The update of a call and its error. `hash` is `bcrypt.GenerateFromPassword`, and `writes`
says for which keys the node's write succeeds. -/
def update : AuthCall → AuthStore × Option AuthError
  | .enable => s.enable writes
  | .disable => if !s.enabled then (s, none) else s.setEnabled writes false
  | .putUser u plainPassword =>
    if plainPassword = [] then s.putUser writes u
    else
      match hash plainPassword with
      | none => (s, some .hashPassword)
      | some h => s.putUser writes { u with passwordHash := h }
  | .deleteUser name =>
    if s.enabled ∧ name = rootUser then (s, some .rootUserInUse)
    else if (s.users name).isNone then (s, some (.userNotFound name))
    else s.writeThrough writes (usersPrefix ++ name)
      { s with users := Function.update s.users name none }
  | .grantRole userName roleName =>
    match s.users userName with
    | none => (s, some (.userNotFound userName))
    | some u =>
      if (s.roles roleName).isNone then (s, some (.roleNotFound roleName))
      else if u.hasRole roleName then (s, none)
      else s.putUser writes { u with roles := u.roles ++ [roleName] }
  | .revokeRole userName roleName =>
    match s.users userName with
    | none => (s, some (.userNotFound userName))
    | some u =>
      let (array, n) := filterInPlace (· ≠ roleName) u.roles
      (s.shareRoles userName u array).putUser writes { u with roles := array.take n }
  | .putRole r => s.putRole writes r
  | .deleteRole name =>
    if s.enabled ∧ name = rootRole then (s, some .rootRoleInUse)
    else if (s.roles name).isNone then (s, some (.roleNotFound name))
    else s.writeThrough writes (rolesPrefix ++ name)
      { s with roles := Function.update s.roles name none }
  | .grantPermission roleName p =>
    match s.roles roleName with
    | none => (s, some (.roleNotFound roleName))
    | some r =>
      match r.permissions.findIdx? (·.isFor p.key p.rangeEnd) with
      | some i =>
        let array := r.permissions.set i p
        (s.sharePermissions roleName r array).putRole writes { r with permissions := array }
      | none => s.putRole writes { r with permissions := r.permissions ++ [p] }
  | .revokePermission roleName key rangeEnd =>
    match s.roles roleName with
    | none => (s, some (.roleNotFound roleName))
    | some r =>
      let (array, n) := filterInPlace (fun p => !p.isFor key rangeEnd) r.permissions
      (s.sharePermissions roleName r array).putRole writes { r with permissions := array.take n }

/-! ## Failed writes -/

/-- A failure of the call's node write leaves the cache alone: nothing stands behind what is
revoked, a permission that is granted replaces none or an equal one, and the write that fails
is the call's first. -/
def Spared : AuthCall → Prop
  | .revokeRole userName roleName =>
    ∀ u ∈ s.users userName, u.roles.Pairwise (fun a b => a = roleName → b = roleName)
  | .grantPermission roleName p => ∀ r ∈ s.roles roleName,
    ∀ i ∈ r.permissions.findIdx? (·.isFor p.key p.rangeEnd), r.permissions[i]? = some p
  | .revokePermission roleName key rangeEnd =>
    ∀ r ∈ s.roles roleName,
      r.permissions.Pairwise (fun a b => a.isFor key rangeEnd → b.isFor key rangeEnd)
  | .enable => (s.roles rootRole).isSome ∨ ¬ writes (rolesPrefix ++ rootRole)
  | _ => True

variable {hash writes s}

theorem of_writeThrough {key : Bytes} {next : AuthStore} {wraps : Bool}
    (failed : (s.writeThrough writes key next).2 = some (.write wraps)) :
    (s.writeThrough writes key next).1 = s := by
  unfold writeThrough at failed ⊢
  split_ifs at failed ⊢
  rfl

theorem shareRoles_eq_iff {name : Bytes} {u : User} (cached : s.users name = some u)
    (array : List Bytes) : s.shareRoles name u array = s ↔ array = u.roles := by
  cases u
  simp [shareRoles, AuthStore.ext_iff, Function.update_eq_self_iff, cached]

theorem sharePermissions_eq_iff {name : Bytes} {r : Role} (cached : s.roles name = some r)
    (array : List Permission) : s.sharePermissions name r array = s ↔ array = r.permissions := by
  cases r
  simp [sharePermissions, AuthStore.ext_iff, Function.update_eq_self_iff, cached]

theorem failed_enable_same_iff {wraps : Bool}
    (failed : (s.enable writes).2 = some (.write wraps)) :
    (s.enable writes).1 = s ↔ s.Spared writes .enable := by
  revert failed
  fun_cases enable writes s <;> intro failed <;> try cases failed
  case case3 known => exact iff_of_true (of_writeThrough failed) (Or.inl known)
  case case4.refl put =>
    unfold putRole writeThrough at put
    split_ifs at put with written <;> cases put
    exact iff_of_true rfl (Or.inr written)
  case case5 absent _ put =>
    unfold putRole writeThrough at put
    split_ifs at put with written <;> cases put
    rw [setEnabled, of_writeThrough failed]
    -- The root role is cached although auth is not enabled.
    refine iff_of_false (fun same => absent ?_) (by simp [Spared, absent, written])
    rw [← same]
    simp

/-- What a failed call leaves in the cache is the store itself exactly when it is spared. -/
theorem failed_update_same_iff {call : AuthCall} {wraps : Bool}
    (failed : (s.update hash writes call).2 = some (.write wraps)) :
    (s.update hash writes call).1 = s ↔ s.Spared writes call := by
  revert failed
  fun_cases update hash writes s call <;> intro failed <;> try cases failed
  case case1 => exact failed_enable_same_iff failed
  case case15 roleName u cached array n filtered =>
    have same := filterInPlace_same_iff (· ≠ roleName) u.roles
    rw [filtered] at same
    rw [putUser, of_writeThrough failed, shareRoles_eq_iff cached, same]
    simp [Spared, cached, not_imp_not]
  case case21 p r cached i found array =>
    obtain ⟨lt, -⟩ := findIdx?_eq_some_iff_getElem.mp found
    have same : r.permissions.set i p = r.permissions ↔ r.permissions[i]? = some p := by
      grind [set_getElem_self]
    rw [putRole, of_writeThrough failed, sharePermissions_eq_iff cached, same]
    simp [Spared, cached, found]
  case case22 p r cached absent =>
    exact iff_of_true (of_writeThrough failed) (by simp [Spared, cached, absent])
  case case24 key rangeEnd r cached array n filtered =>
    have same := filterInPlace_same_iff (fun p => !p.isFor key rangeEnd) r.permissions
    rw [filtered] at same
    rw [putRole, of_writeThrough failed, sharePermissions_eq_iff cached, same]
    simp only [Spared, cached, Option.mem_some_iff, forall_eq', Bool.not_eq_eq_eq_not,
      Bool.not_true,
      ← Bool.not_eq_true, not_imp_not]
  all_goals exact iff_of_true (of_writeThrough failed) trivial

/-- **A call whose node write fails** leaves the cache, and with it what every user may do, as
it was exactly when it is spared. -/
theorem failed_call_unchanged_iff (s : AuthStore) (call : AuthCall) {wraps : Bool}
    (failed : (s.update hash writes call).2 = some (.write wraps)) :
    ((s.update hash writes call).1 = s ∧ ∀ userName key pt,
        (s.update hash writes call).1.checkPermission userName key pt =
          s.checkPermission userName key pt) ↔
      s.Spared writes call := by
  rw [← failed_update_same_iff failed]
  constructor
  · exact And.left
  · intro same
    exact ⟨same, fun _ _ _ => by rw [same]⟩

end

/-- A user who may read and write the keys from `a` on, by two roles. -/
def twoRoles : AuthStore where
  enabled := true
  users name := if name = ascii "u" then
    some { name := ascii "u", roles := [ascii "r", ascii "w"] } else none
  roles name :=
    if name = ascii "r" then some ⟨ascii "r", [⟨ascii "a", [0], .read⟩]⟩
    else if name = ascii "w" then some ⟨ascii "w", [⟨ascii "a", [0], .write⟩]⟩
    else none

theorem failed_call_unchanged_last :
    let call := AuthCall.revokeRole (ascii "u") (ascii "w")
    let after := twoRoles.update some (fun _ => false) call
    after.2 = some (.write false) ∧ after.1 = twoRoles := by
  intro call after
  have failed : after.2 = some (.write false) := by decide +kernel
  refine ⟨failed, ((failed_call_unchanged_iff twoRoles call failed).mpr ?_).1⟩
  rintro u ⟨⟩
  decide +kernel

/-- Revoking the first of two roles fails, and the user has lost it. -/
theorem failed_revokeRole_revokes :
    let after := twoRoles.update some (fun _ => false) (.revokeRole (ascii "u") (ascii "r"))
    after.2 = some (.write false) ∧
      (after.1.users (ascii "u")).map User.roles = some [ascii "w", ascii "w"] ∧
      twoRoles.checkPermission (ascii "u") (ascii "a") .read = .ok () ∧
      after.1.checkPermission (ascii "u") (ascii "a") .read = .error .denied := by
  decide +kernel

end AuthStore

end T4.Etcd
