import DistributedSoftmax.Foundations.TaskPool
import DistributedSoftmax.Gateway.Config
import DistributedSoftmax.Worker.Handler

/-! worker-rs/src/main.rs and worker-rs/src/transport/zmq.rs in the build without
GPU: the settings, the choice of the transport, and the loop of `run`, which
spawns `handle_task` for one message after the other. -/

set_option autoImplicit false

namespace DistributedSoftmax.Worker
open Foundations.Decimal Foundations.TaskPool Foundations.Transition
open Gateway (Env)

/-- `env_u16`, `env_u32` and `env_usize`. -/
def envUnsigned (bits : Nat) (env : Env) (k : String) (d : Nat) : Nat :=
  ((env k).bind (parseUnsigned bits)).getD d

def envI32 (env : Env) (k : String) (d : Int) : Int :=
  ((env k).bind (parseSigned 32)).getD d

/-- The settings that choose the transport. -/
structure Config where
  transport : String
  zmqPullEndpoint : String
  zmqGatewayAddr : String
  zmqBasePort : Nat
  ncclRank : Int
  numWorkers : Nat
  deriving DecidableEq, Repr

/-- `base_port + rank as u16`. A release build wraps the sum. -/
def rankPort (basePort rank : Nat) : Nat := (basePort + rank % 2 ^ 16) % 2 ^ 16

def rankEndpoint (gatewayAddr : String) (basePort rank : Nat) : String :=
  "tcp://" ++ gatewayAddr ++ ":" ++ toString (rankPort basePort rank)

def Config.fromEnv (env : Env) : Config :=
  let ncclRank := envI32 env "NCCL_RANK" (-1)
  let zmqGatewayAddr := (env "ZMQ_GATEWAY_ADDR").getD ""
  let zmqBasePort := envUnsigned 16 env "ZMQ_BASE_PORT" 5560
  { transport := (env "TRANSPORT").getD "zmq"
    zmqPullEndpoint :=
      if !zmqGatewayAddr.isEmpty && 0 ≤ ncclRank then
        rankEndpoint zmqGatewayAddr zmqBasePort ncclRank.toNat
      else (env "ZMQ_PULL_ENDPOINT").getD "ipc:///tmp/softmax_tasks"
    zmqGatewayAddr
    zmqBasePort
    ncclRank
    numWorkers := envUnsigned 64 env "NUM_WORKERS" 4 }

structure ZmqConfig where
  endpoint : String
  maxConcurrent : Nat
  deriving DecidableEq, Repr

/-- `main` up to `transport::zmq::run`. With zmq_nccl it goes through the
`run_nccl` of the build without GPU. -/
def dispatch (cfg : Config) : Except String ZmqConfig :=
  if cfg.transport = "zmq" then .ok ⟨cfg.zmqPullEndpoint, cfg.numWorkers⟩
  else if cfg.transport = "zmq_nccl" then
    if cfg.ncclRank < 0 then .error "NCCL_RANK must be >= 0 for zmq_nccl transport"
    else
      let endpoint :=
        if !cfg.zmqGatewayAddr.isEmpty then
          rankEndpoint cfg.zmqGatewayAddr cfg.zmqBasePort cfg.ncclRank.toNat
        else cfg.zmqPullEndpoint
      .ok ⟨endpoint, 1⟩
  else .error ("unknown TRANSPORT '" ++ cfg.transport ++ "' (valid: zmq | zmq_nccl)")

/-- `tokio::sync::Semaphore::MAX_PERMITS`; `Semaphore::new` panics above it. -/
def maxPermits : Nat := (2 ^ 64 - 1) / 8

/-- The loop of `run` on a connected socket, before the first message. -/
def run {Item Stage : Type} (cfg : ZmqConfig) : Option (Pool Item Stage) :=
  if cfg.maxConcurrent ≤ maxPermits then some (.fresh cfg.maxConcurrent) else none

/-- How many messages `main` has handled at once. -/
def concurrency (env : Env) : Nat :=
  if (Config.fromEnv env).transport = "zmq" then (Config.fromEnv env).numWorkers else 1

theorem dispatch_maxConcurrent {env : Env} {cfg : ZmqConfig}
    (dispatched : dispatch (Config.fromEnv env) = .ok cfg) : cfg.maxConcurrent = concurrency env := by
  unfold dispatch at dispatched
  unfold concurrency
  split at dispatched
  · rename_i zmq
    cases dispatched
    rw [if_pos zmq]
  · rename_i other
    rw [if_neg other]
    split at dispatched
    · split at dispatched
      · cases dispatched
      · cases dispatched
        rfl
    · cases dispatched

/-- What a worker was given and what became of it. -/
structure Accounted {Item Stage : Type} (limit : Nat) (events : List (Event Item Stage))
    (pool : Pool Item Stage) : Prop where
  /-- At most so many tasks are under way. -/
  bounded : pool.running.length ≤ limit
  /-- The messages were started in the order of their arrival, none of them
  twice, and each that was started is under way or has ended. -/
  started : ∃ started finished, arrivals events = started ++ pool.waiting ∧
    started.Perm (finished ++ pool.running.map Prod.fst) ∧ finished.length = ended events
  /-- Where the loop has ended, nothing waits, and all but so many tasks have ended. -/
  left : pool.loop = .left → pool.waiting = [] ∧ (arrivals events).length ≤ ended events + limit
  /-- Without permits nothing is ever started. -/
  starved : limit = 0 → pool.waiting = arrivals events

variable {Item Stage : Type} {begin : Stage}

theorem step_limit {pool next : Pool Item Stage} {event : Event Item Stage}
    (applied : pool.step begin event = some next) : next.limit = pool.limit := by
  cases event with
  | arrive item => rw [(Pool.arrive_eq_some.mp applied).2]
  | close => rw [(Pool.close_eq_some.mp applied).2]
  | take =>
    obtain ⟨_, _, -, -, rfl⟩ | ⟨-, -, -, rfl⟩ := Pool.take_cases applied <;> rfl
  | start =>
    obtain ⟨_, -, -, limit, -⟩ := Pool.start_cases applied
    exact limit
  | settle t left =>
    obtain ⟨_, _, -, limit, -⟩ := Pool.settle_cases applied
    exact limit

theorem step_starved {pool next : Pool Item Stage} (without : pool.limit = 0)
    {event : Event Item Stage} (applied : pool.step begin event = some next) :
    next.waiting = pool.waiting ++ arrivals [event] := by
  have balanced := pool.balanced
  cases event with
  | arrive item =>
    obtain ⟨-, rfl⟩ := Pool.arrive_eq_some.mp applied
    simp only [Pool.waiting, List.append_assoc]
    rfl
  | close =>
    obtain ⟨-, rfl⟩ := Pool.close_eq_some.mp applied
    exact (List.append_nil _).symm
  | take =>
    refine Eq.trans ?_ (List.append_nil _).symm
    obtain ⟨item, rest, receiving, channel, rfl⟩ | ⟨receiving, channel, -, rfl⟩ :=
      Pool.take_cases applied
    · simp only [Pool.waiting, receiving, channel, Loop.held]
      rfl
    · simp only [Pool.waiting, receiving, Loop.held]
  | start =>
    obtain ⟨_, -, free, -⟩ := Pool.start_cases applied
    omega
  | settle t left =>
    obtain ⟨_, _, at_t, -⟩ := Pool.settle_cases applied
    have index := (List.getElem?_eq_some_iff.mp at_t).1
    omega

theorem run_starved {pool next : Pool Item Stage} (without : pool.limit = 0)
    {events : List (Event Item Stage)}
    (ran : Foundations.Transition.run (Pool.step begin) events pool = some next) :
    next.waiting = pool.waiting ++ arrivals events := by
  induction events generalizing pool with
  | nil =>
    cases ran
    exact (List.append_nil _).symm
  | cons event rest ih =>
    obtain ⟨middle, applied, ranRest⟩ := run_cons_eq_some.mp ran
    rw [ih ((step_limit applied).trans without) ranRest, step_starved without applied,
      arrivals_cons event rest, List.append_assoc]

/-- The account of a worker, in every run and whatever its messages and tasks do. -/
theorem worker_accounted {env : Env} {cfg : ZmqConfig} {events : List (Event Item Stage)}
    {start pool : Pool Item Stage} (dispatched : dispatch (Config.fromEnv env) = .ok cfg)
    (connected : run cfg = some start)
    (ran : Foundations.Transition.run (Pool.step begin) events start = some pool) :
    Accounted (concurrency env) events pool := by
  rw [← dispatch_maxConcurrent dispatched]
  unfold run at connected
  split at connected
  · cases connected
    have preserved : ∀ (event : Event Item Stage) (pool next : Pool Item Stage),
        pool.limit = cfg.maxConcurrent → pool.step begin event = some next →
          next.limit = cfg.maxConcurrent :=
      fun _ _ _ same applied => (step_limit applied).trans same
    have limit : pool.limit = cfg.maxConcurrent := run_invariant preserved rfl ran
    obtain ⟨started, finished, account, count⟩ := run_account (fresh_account cfg.maxConcurrent) ran
    have bounded : pool.running.length ≤ cfg.maxConcurrent := limit ▸ pool.running_le
    have total : finished.length = ended events := count.trans (Nat.zero_add _)
    have fifo : arrivals events = started ++ pool.waiting := account.fifo
    refine ⟨bounded, ⟨started, finished, fifo, account.tasks, total⟩, ?_, ?_⟩
    · intro left
      have nothing : pool.waiting = [] := by
        rw [Pool.waiting, left, (account.left left).2]
        rfl
      have lengths := account.tasks.length_eq
      rw [List.length_append, List.length_map] at lengths
      refine ⟨nothing, ?_⟩
      rw [fifo, nothing, List.append_nil]
      omega
    · intro without
      exact run_starved without ran
  · cases connected

/-- One permit: the second message waits until the task of the first has ended. -/
theorem worker_accounted_one_permit :
    ∃ pool : Pool String Unit, Foundations.Transition.run (Pool.step ())
        [.arrive "first", .arrive "second", .take, .start, .take, .settle 0 none, .start]
        (.fresh 1) = some pool ∧
      Accounted 1 [.arrive "first", .arrive "second", .take, .start, .take, .settle 0 none, .start]
        pool := by
  let env : Env := fun name => if name = "NUM_WORKERS" then some "1" else none
  have ran : (Foundations.Transition.run (Pool.step ())
      [.arrive "first", .arrive "second", .take, .start, .take, .settle 0 none, .start]
      (.fresh 1 : Pool String Unit)).isSome := by
    decide
  have dispatched : dispatch (Config.fromEnv env) = .ok ⟨"ipc:///tmp/softmax_tasks", 1⟩ := by
    decide +kernel
  have one : concurrency env = 1 := (dispatch_maxConcurrent dispatched).symm
  obtain ⟨pool, final⟩ := Option.isSome_iff_exists.mp ran
  exact ⟨pool, final, one ▸ worker_accounted dispatched rfl final⟩

end DistributedSoftmax.Worker
