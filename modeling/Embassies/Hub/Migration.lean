import Embassies.Hub.Database

/-! What is left of a dead worker: `migrate_picoprocesses` against what it is for.

    Two statements decide it. The query for an available worker names a column that both its tables have, so the server
    refuses it and no pico is ever relocated. And the join of the final `DELETE` has no condition on the worker, so it takes
    all workers or none. -/

namespace Embassies.Hub

open Except

variable {db db' : Database} {dead : WorkerRow} {ret : PicoRow → List Char} {badWorker : String}

/-! ### What is to hold -/

/-- No other pico at that address uses one of the pico's ports. -/
def PortsFree (db : Database) (p : PicoRow) (ip : String) : Prop :=
  ∀ q ∈ db.picos, q.picoId ≠ p.picoId → q.publicIp = some ip → ∀ pp ∈ db.picoports, pp.picoId = q.picoId →
    ∀ literals, (p.ports.splitOn ';').mapM portLiteral = .ok literals → pp.port ∉ literals

/-- The pico runs on another worker that is registered. -/
def Relocated (db' : Database) (dead : WorkerRow) (p p' : PicoRow) : Prop :=
  ∃ w ∈ db'.workers, ∃ i ∈ db'.ips, w.workerId ≠ dead.workerId ∧ i.workerId = w.workerId ∧ PortsFree db' p i.ip ∧
    p' = { p with hot := true, workerId := some w.workerId, publicIp := some i.ip }

def RecordedCold (p p' : PicoRow) : Prop := p' = { p with hot := false, workerId := none, publicIp := none }

/-- The law of a migration, over the whole database. -/
structure Migrated (db db' : Database) (dead : WorkerRow) : Prop where
  workers : db'.workers = db.workers.filter fun w => w.workerId ≠ dead.workerId
  ips : db'.ips = db.ips.filter fun i => i.workerId ≠ dead.workerId
  picos : List.Forall₂ (fun p p' => if p.workerId = some dead.workerId then
    Relocated db' dead p p' ∨ RecordedCold p p' else p' = p) db.picos db'.picos

/-- The dead worker was the only one, ran no pico, and its addresses are the rows with the address of its heart. -/
structure OnlyWorker (db : Database) (dead : WorkerRow) : Prop where
  workers : db.workers = [dead]
  idle : ∀ p ∈ db.picos, p.workerId ≠ some dead.workerId
  listed : ∃ i ∈ db.ips, i.ip = dead.heartIp
  ips : ∀ i ∈ db.ips, i.ip = dead.heartIp ↔ i.workerId = dead.workerId

/-! ### What the statements do -/

lemma resolve_status : resolve [.ips, .workers] "status" = .error (.ambiguousColumn "status") := by
  simp [resolve, Table.columns]

/-- QUERY: the server refuses it, whatever the tables hold. -/
lemma findAvailableWorker_raises (db : Database) (ports : List Char) : ∃ e, findAvailableWorker db ports = .error e := by
  unfold findAvailableWorker
  rw [resolve_status]
  cases (ports.splitOn ';').mapM portLiteral with
  | error e => exact ⟨e, rfl⟩
  | ok literals =>
    cases resolve [.ips, .workers] "ip" with
    | error e => exact ⟨e, rfl⟩
    | ok _ =>
      cases resolve [.ips, .workers] "heart_ip" with
      | error e => exact ⟨e, rfl⟩
      | ok _ => exact ⟨_, rfl⟩

lemma runPicoprocess_raises (db : Database) (pico : PicoRow) (ret : List Char) :
    ∃ e, runPicoprocess db pico ret = .error e := by
  obtain ⟨e, he⟩ := findAvailableWorker_raises db pico.ports
  refine ⟨e, ?_⟩
  rw [runPicoprocess, he]
  rfl

lemma migratePicoprocesses_eq_ok : migratePicoprocesses db badWorker ret = .ok db' ↔
    findOrphans db badWorker = .ok [] ∧ db' = db.removeWorker badWorker := by
  unfold migratePicoprocesses
  cases findOrphans db badWorker with
  | error e => exact iff_of_false (by rintro ⟨⟩) (by rintro ⟨⟨⟩, -⟩)
  | ok orphans =>
    cases orphans with
    | nil => exact ⟨fun h => ⟨rfl, (ok.inj h).symm⟩, fun h => congrArg ok h.2.symm⟩
    | cons orphan orphans =>
      obtain ⟨e, he⟩ := runPicoprocess_raises db orphan (ret orphan)
      refine iff_of_false (fun h => ?_) (by rintro ⟨⟨⟩, -⟩)
      have hraised : (ok (orphan :: orphans) >>= fun orphans => orphans.foldlM
          (fun db orphan => runPicoprocess db orphan (ret orphan)) db >>= fun db =>
            pure (db.removeWorker badWorker)) = error e := by
        show (runPicoprocess db orphan (ret orphan) >>= _) >>= _ = _
        rw [he]
        rfl
      rw [hraised] at h
      cases h

lemma any_ip : (db.ips.any fun i => i.ip == badWorker) = true ↔ ∃ i ∈ db.ips, i.ip = badWorker := by
  simp

/-- DELETE: if the address occurs, all workers go. -/
lemma removeWorker_workers_of_listed (h : ∃ i ∈ db.ips, i.ip = badWorker) : (db.removeWorker badWorker).workers = [] := by
  show (db.workers.filter fun _ => !db.ips.any fun i => i.ip == badWorker) = []
  rw [any_ip.mpr h]
  exact List.filter_eq_nil_iff.mpr fun w _ => by simp

/-- DELETE: if it does not, all workers stay. -/
lemma removeWorker_workers_of_not_listed (h : ¬∃ i ∈ db.ips, i.ip = badWorker) :
    (db.removeWorker badWorker).workers = db.workers := by
  show (db.workers.filter fun _ => !db.ips.any fun i => i.ip == badWorker) = db.workers
  rw [Bool.eq_false_iff.mpr (mt any_ip.mp h)]
  exact List.filter_eq_self.mpr fun w _ => by simp

/-- DELETE: of the addresses, those that are the given one go. -/
lemma removeWorker_ips (h : dead ∈ db.workers) :
    (db.removeWorker badWorker).ips = db.ips.filter fun i => i.ip ≠ badWorker := by
  have hany : (db.workers.any fun _ => true) = true := List.any_eq_true.mpr ⟨dead, h, rfl⟩
  show (db.ips.filter fun i => !(i.ip == badWorker && db.workers.any fun _ => true)) = _
  rw [hany]
  exact List.filter_congr fun i _ => by rw [Bool.and_true, decide_not, beq_eq_decide]

lemma findOrphans_eq_nil (hworkers : db.workers = [dead]) (hidle : ∀ p ∈ db.picos, p.workerId ≠ some dead.workerId) :
    findOrphans db dead.heartIp = .ok [] := by
  have hfilter : (db.workers.filter fun w => w.heartIp = dead.heartIp) = [dead] := by
    simp [hworkers]
  rw [findOrphans, hfilter]
  exact congrArg ok (List.filter_eq_nil_iff.mpr fun p hp => by simpa using hidle p hp)

lemma idle_of_findOrphans (hdead : dead ∈ db.workers) (h : findOrphans db dead.heartIp = .ok []) :
    ∀ p ∈ db.picos, p.workerId ≠ some dead.workerId := by
  have hmem : dead ∈ db.workers.filter fun w => w.heartIp = dead.heartIp := by
    simpa using hdead
  unfold findOrphans at h
  cases hfound : db.workers.filter fun w => w.heartIp = dead.heartIp with
  | nil =>
    rw [hfound] at hmem
    cases hmem
  | cons w ws =>
    rw [hfound] at hmem h
    cases ws with
    | nil =>
      rw [List.mem_singleton] at hmem
      subst hmem
      intro p hp
      simpa using List.filter_eq_nil_iff.mp (ok.inj h) p hp
    | cons _ _ => cases h

/-- MIGRATION: exactly when the dead worker was the only one and had nothing to do. -/
theorem migratePicoprocesses_migrated_iff (db : Database) (dead : WorkerRow) (hdead : dead ∈ db.workers)
    (ret : PicoRow → List Char) :
    (∃ db', migratePicoprocesses db dead.heartIp ret = .ok db' ∧ Migrated db db' dead) ↔ OnlyWorker db dead := by
  constructor
  · rintro ⟨db', hrun, hmigrated⟩
    obtain ⟨horphans, rfl⟩ := migratePicoprocesses_eq_ok.mp hrun
    have hidle := idle_of_findOrphans hdead horphans
    have hworkers := hmigrated.workers
    have hips := hmigrated.ips
    have hlisted : ∃ i ∈ db.ips, i.ip = dead.heartIp := by
      by_contra hnot
      rw [removeWorker_workers_of_not_listed hnot] at hworkers
      rw [hworkers] at hdead
      simp at hdead
    rw [removeWorker_workers_of_listed hlisted] at hworkers
    rw [removeWorker_ips hdead] at hips
    have hsame : ∀ w ∈ db.workers, w = dead := by
      intro w hw
      have hid : w.workerId = dead.workerId := by simpa using List.filter_eq_nil_iff.mp hworkers.symm w hw
      exact List.inj_on_of_nodup_map db.workersKey hw hdead hid
    refine ⟨?_, hidle, hlisted, fun i hi => ?_⟩
    · refine List.perm_singleton.mp ((List.perm_ext_iff_of_nodup (List.Nodup.of_map _ db.workersKey)
        (List.nodup_singleton dead)).mpr fun w => ?_)
      rw [List.mem_singleton]
      exact ⟨hsame w, fun heq => heq ▸ hdead⟩
    · have hkept : i ∈ (db.ips.filter fun i => i.ip ≠ dead.heartIp) ↔
          i ∈ db.ips.filter fun i => i.workerId ≠ dead.workerId := by
        rw [hips]
      simpa [hi, not_iff_not] using hkept
  · intro honly
    refine ⟨_, migratePicoprocesses_eq_ok.mpr ⟨findOrphans_eq_nil honly.workers honly.idle, rfl⟩, ?_, ?_, ?_⟩
    · rw [removeWorker_workers_of_listed honly.listed, honly.workers]
      simp
    · rw [removeWorker_ips hdead]
      exact List.filter_congr fun i hi => by simp [honly.ips i hi]
    · refine List.forall₂_same.mpr fun p hp => ?_
      rw [if_neg (honly.idle p hp)]

def oneWorker : Database :=
  ⟨[], [⟨1, 1, "10.0.0.1"⟩], [], [⟨1, "10.0.0.1", 0⟩], List.nodup_nil, List.nodup_singleton _⟩

theorem migratePicoprocesses_oneWorker : ∃ db', migratePicoprocesses oneWorker "10.0.0.1" (fun _ => []) = .ok db' ∧
    Migrated oneWorker db' ⟨1, 1, "10.0.0.1"⟩ :=
  (migratePicoprocesses_migrated_iff oneWorker ⟨1, 1, "10.0.0.1"⟩ List.mem_cons_self fun _ => []).mpr
    ⟨rfl, by simp [oneWorker], ⟨_, List.mem_cons_self, rfl⟩, by simp [oneWorker]⟩

def twoWorkers : Database :=
  ⟨[], [⟨1, 1, "10.0.0.1"⟩, ⟨2, 1, "10.0.0.2"⟩], [], [⟨1, "10.0.0.1", 0⟩, ⟨2, "10.0.0.2", 0⟩], List.nodup_nil, by simp⟩

/-- The worker that is alive goes as well. -/
theorem not_migrated_twoWorkers : (∃ db', migratePicoprocesses twoWorkers "10.0.0.1" (fun _ => []) = .ok db' ∧
    db'.workers = []) ∧ ¬∃ db', migratePicoprocesses twoWorkers "10.0.0.1" (fun _ => []) = .ok db' ∧
      Migrated twoWorkers db' ⟨1, 1, "10.0.0.1"⟩ := by
  have hlisted : ∃ i ∈ twoWorkers.ips, i.ip = "10.0.0.1" := ⟨_, List.mem_cons_self, rfl⟩
  have horphans : findOrphans twoWorkers "10.0.0.1" = .ok [] := by
    simp [findOrphans, twoWorkers]
  refine ⟨⟨_, migratePicoprocesses_eq_ok.mpr ⟨horphans, rfl⟩, removeWorker_workers_of_listed hlisted⟩, ?_⟩
  rintro ⟨db', hrun, hmigrated⟩
  obtain ⟨-, rfl⟩ := migratePicoprocesses_eq_ok.mp hrun
  have hworkers := hmigrated.workers
  rw [removeWorker_workers_of_listed hlisted] at hworkers
  simp [twoWorkers] at hworkers

end Embassies.Hub
