import Amaru.Ledger.ReadThrough.Pools

/-!
# The life of a pool

A pool is ticked at every boundary from its first registration on. What becomes of it is decided by
**all certificates seen so far**: the latest registration, and the retirement after it.

There are two exceptions. A registration that is displaced (`Displaces`) never takes effect. And a
deposit goes to the reward account of the parameters in force, although a registration of the closing
epoch may name another one.
-/

namespace Amaru

open List PoolsEpochTransitionUpdates Option Outstanding

theorem Outstanding.addAll_eq (outstanding : Outstanding) (certs : List PoolCertificate) :
    outstanding.addAll certs =
      { registration := (of certs).registration.or outstanding.registration
        retirement := (addAll { retirement := outstanding.retirement } certs).retirement } := by
  induction certs using reverseRecOn with
  | nil => rfl
  | append_singleton certs certificate ih =>
    rw [of_append, addAll_append, addAll_append, ih]
    cases certificate <;> rfl

namespace PoolRow

variable {epoch due : ℕ} {seen certs : List PoolCertificate} {first row : PoolRow}
  {Queue : ℕ → List PoolCertificate → Prop}

/-- The row of a pool with the certificates of an epoch. -/
def append (row : PoolRow) (certs : List PoolCertificate) : PoolRow :=
  { row with pendingCertificates := row.pendingCertificates ++ certs }

/-- What a pool should come to, from its first registration and the certificates seen since. -/
def expected (first : PoolRow) (seen : List PoolCertificate) : Summary :=
  { first.summary with
    currentParams := match (Outstanding.of seen).registration with
      | some params => { params with id := first.currentParams.id }
      | none => first.currentParams
    outstanding := { retirement := (Outstanding.of seen).retirement } }

/-- A pool at an epoch, with the certificates seen before. The queues that were ticked are such as `Queue`
says. -/
inductive Lives (Queue : ℕ → List PoolCertificate → Prop) (first : PoolRow) :
    ℕ → List PoolCertificate → PoolRow → Prop
  | registered (epoch : ℕ) (hfirst : first.pendingCertificates = []) : Lives Queue first epoch [] first
  | tick {epoch seen certs row updates} (h : Lives Queue first epoch seen row)
    (hqueue : Queue (epoch + 1) (row.append certs).pendingCertificates)
    (htick : tickPool (epoch + 1) {} (row.append certs) = .ok updates)
    (hretired : row.currentParams.id ∉ updates.retired) :
    Lives Queue first (epoch + 1) (seen ++ certs)
        ((updates.updated.get? row.currentParams.id).getD (row.append certs))

/-- The certificates that validation accepts in an epoch: a pool retires in a later one. -/
def Valid (epoch : ℕ) (certs : List PoolCertificate) : Prop :=
  ∀ due, .retirement due ∈ certs → epoch < due

/-- A pool that is ticked and does not retire is as after the boundary. -/
theorem after_of_tickPool {updates} (htick : tickPool epoch {} (row.append certs) = .ok updates)
    (hretired : row.currentParams.id ∉ updates.retired) : (row.append certs).due epoch = none ∧
      (updates.updated.get? row.currentParams.id).getD (row.append certs) =
        (row.append certs).after epoch := by
  obtain ⟨hiff, hupdated⟩ := of_tickPool htick row.currentParams.id
  have hdue : (row.append certs).due epoch = none := by
    simpa using mt (fun h ↦ hiff.2 (.inl ⟨rfl, h⟩)) hretired
  refine ⟨hdue, ?_⟩
  rw [hupdated, if_pos ⟨rfl, hdue⟩, after]
  cases (row.append certs).update epoch <;> rfl

section

variable (hrow : row.summary = { first.expected seen with currentParams := row.currentParams })
include hrow

theorem of_pendingCertificates_append : Outstanding.of (row.append certs).pendingCertificates =
    { registration := (Outstanding.of certs).registration
      retirement := (Outstanding.of (seen ++ certs)).retirement } := by
  have hpending : Outstanding.of row.pendingCertificates = _ := congrArg Summary.outstanding hrow
  rw [append, of_append, of_append, hpending, addAll_eq, addAll_eq (.of seen)]
  simp [expected]

theorem due_append_eq_some_iff : (row.append certs).due (epoch + 1) = some due ↔
    (seen ++ certs).getLast? = some (.retirement due) ∧ due ≤ epoch + 1 := by
  rw [PoolRow.due, filter_eq_some_iff, of_pendingCertificates_append hrow, retirement_of_eq_some_iff,
    decide_eq_true_iff]

variable (hdue : (row.append certs).due (epoch + 1) = none)
include hdue

/-- A pool that does not retire comes to what it should, its parameters apart. -/
theorem summary_after_append : ((row.append certs).after (epoch + 1)).summary =
    { first.expected (seen ++ certs) with
      currentParams := ((row.append certs).after (epoch + 1)).currentParams } := by
  have hof := @of_pendingCertificates_append seen certs _ _ hrow
  obtain ⟨hregisteredAt, hdeposit, -, -⟩ := Summary.mk.inj hrow
  have hlater : (Outstanding.of (seen ++ certs)).retirement.filter (epoch + 1 < ·) =
      (Outstanding.of (seen ++ certs)).retirement := by
    rw [PoolRow.due, hof] at hdue
    rcases hlast : (Outstanding.of (seen ++ certs)).retirement with - | due
    · rfl
    · simpa [hlast, Option.filter] using hdue
  have hsummary := summary_after hdue
  rw [hof, hlater] at hsummary
  obtain ⟨hregisteredAt', hdeposit', -, hpending⟩ := Summary.mk.inj hsummary
  exact Summary.mk.injEq .. ▸ ⟨hregisteredAt'.trans hregisteredAt, hdeposit'.trans hdeposit, rfl, hpending⟩

/-- **The parameters are those of the latest registration**, if none is displaced. -/
theorem currentParams_after_append (hparams : row.currentParams = (first.expected seen).currentParams)
    (hkept : ¬Displaces (epoch + 1) (row.append certs).pendingCertificates) :
    ((row.append certs).after (epoch + 1)).currentParams =
      (first.expected (seen ++ certs)).currentParams := by
  have htakes := certificate_eq_registration_iff hdue
  refine (congrArg Summary.currentParams (summary_after hdue)).trans ?_
  rw [of_pendingCertificates_append hrow] at htakes
  dsimp only [expected]
  rw [of_append, addAll_eq]
  rcases hregistration : (Outstanding.of certs).registration with - | latest
  · split
    · next params hcertificate =>
      cases hregistration.symm.trans ((htakes params).1 hcertificate).1
    · exact hparams
  · have hid : row.currentParams.id = first.currentParams.id := by
      rw [hparams, expected]
      split <;> rfl
    rw [(htakes latest).2 ⟨hregistration, hkept⟩]
    simp only [append, hid, some_or]

end

/-- What holds along the life of a pool: it comes to what it should, its parameters apart, and does not
retire too late. -/
theorem sound_of_lives (h : Lives Queue first epoch seen row) :
    row.summary = { first.expected seen with currentParams := row.currentParams } ∧
      ∀ due, seen.getLast? = some (.retirement due) → epoch < due := by
  induction h with
  | registered epoch hfirst =>
    refine ⟨?_, nofun⟩
    rw [summary, hfirst]
    rfl
  | @tick epoch seen certs row updates _ _ htick hretired ih =>
    obtain ⟨hdue, hafter⟩ := after_of_tickPool htick hretired
    rw [hafter]
    refine ⟨summary_after_append ih.1 hdue, fun due hlast ↦ ?_⟩
    by_contra hle
    rw [(due_append_eq_some_iff ih.1).2 ⟨hlast, Nat.not_lt.1 hle⟩] at hdue
    cases hdue

theorem currentParams_of_lives (h : Lives (fun epoch queue ↦ ¬Displaces epoch queue) first epoch seen row) :
    row.currentParams = (first.expected seen).currentParams := by
  induction h with
  | registered => rfl
  | @tick epoch seen certs row updates h hkept htick hretired ih =>
    obtain ⟨hdue, hafter⟩ := after_of_tickPool htick hretired
    rw [hafter]
    exact currentParams_after_append (sound_of_lives h).1 hdue ih hkept

/-- **Retiring a pool breaks no assertion**: a retirement is due at the boundary into its own epoch. -/
theorem tickPool_append (h : Lives Queue first epoch seen row) (hvalid : Valid epoch certs) :
    tickPool (epoch + 1) {} (row.append certs) = .ok (
      if ((row.append certs).due (epoch + 1)).isSome then retirePool {} (row.append certs)
      else (((row.append certs).update (epoch + 1)).map (updatePool {})).getD {}) := by
  obtain ⟨hrow, hlater⟩ := sound_of_lives h
  rw [tickPool_eq]
  rcases hdue : (row.append certs).due (epoch + 1) with - | due
  · rfl
  obtain ⟨hlast, hle⟩ := (due_append_eq_some_iff hrow).1 hdue
  have hlt : epoch < due := by
    rcases eq_nil_or_concat certs with rfl | ⟨older, certificate, rfl⟩
    · exact hlater due (by simpa using hlast)
    · exact hvalid due (by simp_all [← append_assoc])
  exact if_pos (by omega)

/-- **A pool follows its certificates where no registration is displaced.** At every epoch it has the
parameters of the latest registration made before; it retires at the first boundary before which the
last certificate is a retirement that is due; and no assertion is broken. -/
theorem pool_follows_certificates (h : Lives (fun epoch queue ↦ ¬Displaces epoch queue) first epoch seen row)
    (hvalid : Valid epoch certs) :
    row.currentParams = (first.expected seen).currentParams ∧
    ∃ updates, tickPool (epoch + 1) {} (row.append certs) = .ok updates ∧
      (row.currentParams.id ∈ updates.retired ↔
        ∃ due ≤ epoch + 1, (seen ++ certs).getLast? = some (.retirement due)) := by
  have hrow := (sound_of_lives h).1
  have htick := tickPool_append h hvalid
  refine ⟨currentParams_of_lives h, _, htick, ?_⟩
  have hid : row.currentParams.id = (row.append certs).currentParams.id := rfl
  rw [(of_tickPool htick _).1, isSome_iff_exists]
  simp only [hid, true_and, SortedSet.notMem_empty, or_false, due_append_eq_some_iff hrow, and_comm]

/-- A pool that has just registered. -/
def firstRow : PoolRow where
  registeredAt := default
  deposit := 500
  currentParams := firstPool 10

/-- **A registration is lost**: the retirement after it, due at the boundary, is replaced by a later one. -/
theorem displaced_registration_is_lost : ∃ updates,
    Valid 1 [.registration (firstPool 20), .retirement 2, .retirement 4] ∧
    tickPool 2 {} (firstRow.append [.registration (firstPool 20), .retirement 2, .retirement 4]) =
      .ok updates ∧
    updates.updated.get? 1 = some { firstRow with pendingCertificates := [.retirement 4] } ∧
    (firstRow.expected [.registration (firstPool 20), .retirement 2, .retirement 4]).currentParams =
      firstPool 20 :=
  ⟨_, by simp [Valid], rfl, rfl, rfl⟩

/-- The pool registers again in the first epoch, and its new parameters are in force in the second. -/
theorem lives_firstRow (hqueue : Queue 2 [.registration (firstPool 20)]) :
    Lives Queue firstRow 2 [.registration (firstPool 20)]
      { firstRow with currentParams := firstPool 20 } := by
  have htick : tickPool 2 {} (firstRow.append [.registration (firstPool 20)]) = .ok _ := rfl
  exact .tick (.registered 1 rfl) hqueue htick (by decide)

/-- Then it retires, at the boundary after. -/
theorem pool_follows_certificates_firstRow : ∃ updates,
    tickPool 3 {} { firstRow with currentParams := firstPool 20, pendingCertificates := [.retirement 3] } =
      .ok updates ∧ 1 ∈ updates.retired := by
  have hkept : ¬Displaces 2 [.registration (firstPool 20)] := by
    rintro ⟨older, due, newer, heq, -, ⟨params, hmem⟩, -⟩
    cases older <;> simp_all
  obtain ⟨-, updates, htick, hretired⟩ := pool_follows_certificates (lives_firstRow hkept)
    (by simp [Valid] : Valid 2 [.retirement 3])
  exact ⟨updates, htick, hretired.2 ⟨3, le_rfl, rfl⟩⟩

/-- **The deposit of a pool that retires goes to the latest reward account exactly when the parameters in
force name it**: a registration of the closing epoch, or one that was displaced, is not looked at. -/
theorem refund_to_latest_account_iff (h : Lives Queue first epoch seen row)
    (hvalid : Valid epoch certs) (hdue : due ≤ epoch + 1)
    (hlast : (seen ++ certs).getLast? = some (.retirement due)) :
    ∃ updates, tickPool (epoch + 1) {} (row.append certs) = .ok updates ∧
      (updates.refunds.get? (first.expected (seen ++ certs)).currentParams.rewardAccount.credential =
          some first.deposit ↔
        (first.expected (seen ++ certs)).currentParams.rewardAccount.credential =
          row.currentParams.rewardAccount.credential) := by
  have hrow := (sound_of_lives h).1
  have htick := tickPool_append h hvalid
  rw [(due_append_eq_some_iff hrow).2 ⟨hlast, hdue⟩] at htick
  have hdeposit : row.deposit = first.deposit := congrArg Summary.deposit hrow
  refine ⟨_, htick, ?_⟩
  rw [← hdeposit]
  simp [retirePool, append, SortedMap.get?_alter]

/-- The pool, registered again with another reward account. -/
def otherAccount : PoolParams :=
  { firstPool 10 with rewardAccount := { (default : RewardAccount) with credential := .keyHash 7 } }

/-- **A deposit goes to the old reward account**, although the pool names another before it retires. -/
theorem refund_to_old_account : ∃ updates,
    tickPool 2 {} (firstRow.append [.registration otherAccount, .retirement 2]) = .ok updates ∧
    updates.refunds.get? (firstPool 10).rewardAccount.credential = some 500 ∧
    updates.refunds.get? otherAccount.rewardAccount.credential = none :=
  ⟨_, rfl, rfl, rfl⟩

theorem refund_to_latest_account_firstRow : ∃ updates,
    tickPool 3 {} { firstRow with currentParams := firstPool 20, pendingCertificates := [.retirement 3] } =
      .ok updates ∧ updates.refunds.get? (firstPool 20).rewardAccount.credential = some 500 := by
  obtain ⟨updates, htick, hrefund⟩ := refund_to_latest_account_iff (lives_firstRow trivial : Lives
    (fun _ _ ↦ True) _ _ _ _) (by simp [Valid] : Valid 2 [.retirement 3]) le_rfl rfl
  exact ⟨updates, htick, hrefund.2 rfl⟩

end PoolRow

end Amaru
