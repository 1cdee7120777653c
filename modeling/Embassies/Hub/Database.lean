import Mathlib.Data.List.Nodup

/-! The hub's database: the tables of `setup-hub-db.sql` and the statements of `PicoManager.py`.

    A statement is what the server makes of its text: names of columns are looked up in the tables of its `FROM` clause,
    and it fails if one is found twice. `NULL` is `none`; `x NOT IN (...)` is true only if the list has no `NULL`. Rows come
    in the order of their tables. -/

namespace Embassies.Hub

/-- `CREATE TABLE`. -/
inductive Table where | picos | workers | picoports | ips
  deriving DecidableEq

def Table.columns : Table → List String
  | .picos => ["pico_id", "hot", "worker_id", "public_ip", "internal_ip", "ports", "hostname", "customer_id"]
  | .workers => ["worker_id", "status", "heart_ip"]
  | .picoports => ["pico_id", "port"]
  | .ips => ["worker_id", "ip", "status"]

structure PicoRow where
  picoId : ℕ
  hot : Bool
  workerId : Option ℕ
  publicIp : Option String
  internalIp : String
  ports : List Char
  hostname : String
  customerId : ℕ
  deriving DecidableEq

structure WorkerRow where
  workerId : ℕ
  status : ℕ
  heartIp : String
  deriving DecidableEq

structure PicoPortRow where
  picoId : ℕ
  port : ℕ
  deriving DecidableEq

structure IpRow where
  workerId : ℕ
  ip : String
  status : ℕ
  deriving DecidableEq

/-- The tables, with their primary keys. -/
structure Database where
  picos : List PicoRow
  workers : List WorkerRow
  picoports : List PicoPortRow
  ips : List IpRow
  picosKey : (picos.map PicoRow.picoId).Nodup
  workersKey : (workers.map WorkerRow.workerId).Nodup

/-- What the server and the cursor raise. -/
inductive Raised where
  | syntaxError
  | unknownColumn (column : String)
  | ambiguousColumn (column : String)
  /-- a subquery that stands for a value returns more than one row -/
  | subqueryRows
  /-- `None` is unpacked: `fetchone` found no row -/
  | noneUnpacked
  deriving DecidableEq

/-- The table that a column without a qualifier belongs to. -/
def resolve (tables : List Table) (column : String) : Except Raised Table :=
  match tables.filter fun table => column ∈ table.columns with
  | [] => .error (.unknownColumn column)
  | [table] => .ok table
  | _ => .error (.ambiguousColumn column)

/-- A port, pasted into a condition. -/
def portLiteral (port : List Char) : Except Raised ℕ :=
  if port = [] ∨ ¬port.all Char.isDigit then .error .syntaxError
  else .ok (port.foldl (fun n c => 10 * n + (c.toNat - '0'.toNat)) 0)

/-- `ip NOT IN (...)`. -/
def notIn (ip : String) (values : List (Option String)) : Bool := values.all fun v => v.isSome && v != some ip

/-- `find_available_worker`. -/
def findAvailableWorker (db : Database) (ports : List Char) : Except Raised (String × String × ℕ) := do
  let literals ← (ports.splitOn ';').mapM portLiteral
  -- FROM ips i, workers w
  let _ ← resolve [.ips, .workers] "ip"
  let _ ← resolve [.ips, .workers] "heart_ip"
  let statusTable ← resolve [.ips, .workers] "status"
  let taken := (db.picos.flatMap fun p => db.picoports.filterMap fun pp =>
    if p.picoId = pp.picoId ∧ pp.port ∈ literals then some p.publicIp else none)
  let rows := (db.ips.flatMap fun i => db.workers.filterMap fun w =>
    let status := if statusTable = .ips then i.status else w.status
    if i.workerId = w.workerId ∧ status = 1 ∧ notIn i.ip taken then some (i.ip, w.heartIp, w.workerId) else none)
  match rows with
  | [] => .error .noneUnpacked
  | row :: _ => .ok row

/-- `UPDATE picos SET hot=TRUE, worker_id=.., public_ip=.. WHERE pico_id=..`. -/
def Database.setHot (db : Database) (picoId workerId : ℕ) (publicIp : String) : Database :=
  { db with
    picos := db.picos.map fun p =>
      if p.picoId = picoId then { p with hot := true, workerId := some workerId, publicIp := some publicIp } else p
    picosKey := by
      have hkeys : (PicoRow.picoId ∘ fun p : PicoRow => if p.picoId = picoId then
          { p with hot := true, workerId := some workerId, publicIp := some publicIp } else p) = PicoRow.picoId := by
        funext p
        simp only [Function.comp_apply]
        split <;> rfl
      rw [List.map_map, hkeys]
      exact db.picosKey }

/-- `DELETE FROM ips,workers USING workers INNER JOIN ips WHERE ip=..`: the rows that occur in a row of the join. -/
def Database.removeWorker (db : Database) (badWorker : String) : Database :=
  { db with
    workers := db.workers.filter fun _ => !db.ips.any fun i => i.ip == badWorker
    ips := db.ips.filter fun i => !(i.ip == badWorker && db.workers.any fun _ => true)
    workersKey := db.workersKey.sublist (List.filter_sublist.map _) }

/-- `run_picoprocess`, as far as the database goes; `ret` is what the socket receives after the request was sent. -/
def runPicoprocess (db : Database) (pico : PicoRow) (ret : List Char) : Except Raised Database := do
  let (hostIp, _, workerId) ← findAvailableWorker db pico.ports
  -- worker failed to start picoprocess
  if ret ≠ [] then return db
  return db.setHot pico.picoId workerId hostIp

/-- `SELECT * FROM picos WHERE worker_id=(SELECT worker_id FROM workers WHERE heart_ip=..)`. -/
def findOrphans (db : Database) (badWorker : String) : Except Raised (List PicoRow) :=
  match db.workers.filter fun w => w.heartIp = badWorker with
  | [] => .ok []
  | [w] => .ok (db.picos.filter fun p => p.workerId = some w.workerId)
  | _ => .error .subqueryRows

/-- `migrate_picoprocesses`; `ret` is what the socket receives for each pico. -/
def migratePicoprocesses (db : Database) (badWorker : String) (ret : PicoRow → List Char) : Except Raised Database := do
  let orphans ← findOrphans db badWorker
  let db ← orphans.foldlM (fun db orphan => runPicoprocess db orphan (ret orphan)) db
  return db.removeWorker badWorker

end Embassies.Hub
