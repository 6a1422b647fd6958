import Axiomc.Workspace.TransactionRuns

/-!
# Transactions: several handles

A lease can be lost, and then a transaction has more than one handle.  What orders them is the
compare-and-swap of `persist_state` on owner and generation.

* `Party`, `Move`, `Machine`: handles and unfinished recoveries, which write the state in any order;
* `wp_write`: what one write can do to the state file;
* `Machine.Fenced`: the invariant of the runs;
* `run_fenced`: generations grow by one, and a handle that was taken over never writes again.
-/

namespace Axiomc.Workspace

open Foundation List

variable (host : Host)

/-- Who may write the state.  A `recover` has read the state before it writes it; its checks in between
can only keep it from writing. -/
inductive Party where
  | unborn
  | recovering (read : TransactionState)
  | handle (state : TransactionState)
  | closed

namespace Party

def isSettled : Party → Bool
  | handle _ | closed => true
  | _ => false

/-- The copy of the state that a handle writes.  No call on a handle changes these three fields. -/
def edited (edit : TransactionState → TransactionState) : Party → TransactionState
  | handle state =>
    { edit state with
      transactionId := state.transactionId
      ownerEpoch := state.ownerEpoch
      generation := state.generation }
  | _ => default

/-- The write of the state; `epoch` is the party's own. -/
def write (epoch : Text) : Party → Io PUnit
  | handle _ => persist host
  | recovering read => do
    let next ← persistState host { read with ownerEpoch := epoch } (some (read.ownerEpoch, read.generation))
    modifyState fun _ => next
  | _ => throw .crash

/-- What becomes of a party after its write: a `recover` that fails leaves no handle. -/
def after : Party → Except Stop PUnit → TransactionState → Party
  | _, .ok _, state => handle state
  | handle _, .error (.error _), state => handle state
  | _, _, _ => closed

end Party

structure Machine where
  tree : Worktree
  party : Nat → Party

inductive Move where
  /-- A `recover` reads the state. -/
  | load (i : Nat)
  /-- A party writes the state, after what its call did to its copy. -/
  | write (i : Nat) (edit : TransactionState → TransactionState) (nonce : Nat) (faults : List Verdict)
  /-- Whatever else happens to the worktree. -/
  | other (change : Worktree → Worktree)
      (keeps : ∀ tree, (change tree).node [stateFile] = tree.node [stateFile])

variable (epochs : Nat → Text)

namespace Machine

/-- A move; `epochs` are the results of `new_owner_epoch`. -/
def stepResult (m : Machine) : Move → Except Stop PUnit × Machine
  | .load i =>
    match m.party i, readState host m.tree with
    | .unborn, .ok read => (.ok ⟨⟩, { m with party := Function.update m.party i (.recovering read) })
    | _, _ => (.error .crash, m)
  | .write i edit nonce faults =>
    let p := m.party i
    let (result, s) := exec (p.write host (epochs i)) ⟨m.tree, [], nonce, faults, p.edited edit⟩
    (result, ⟨s.tree, Function.update m.party i (p.after result s.state)⟩)
  | .other change _ => (.ok ⟨⟩, { m with tree := change m.tree })

def step (m : Machine) (move : Move) : Machine := (m.stepResult host epochs move).2

def run (m : Machine) (moves : List Move) : Machine := moves.foldl (step host epochs) m

end Machine

/-- The machine of a system: the handle is the first party. -/
def Machine.ofSystem (system : System) : Machine where
  tree := system.tree
  party
    | 0 => match system.handle with
      | some state => .handle state
      | none => .closed
    | _ => .unborn

/-! ### One write -/

/-- A party replaces the state on the disk by the next one, and has to be the owner if it is a handle. -/
structure Swapped (epoch : Text) (p : Party) (a b : TransactionState) : Prop where
  owner : p.isSettled = true → a.ownerEpoch = epoch
  epoch : b.ownerEpoch = epoch
  next : b.generation = a.generation + 1

variable {host} {epochs} {a b : TransactionState} {s : Session} {p : Party} {m : Machine} {i : Nat}
  {move : Move} {edit : TransactionState → TransactionState} {nonce : Nat} {faults : List Verdict}
  {epoch : Text}

/-- The state file is as it was, or a party has replaced the state in it. -/
def Written (epoch : Text) (p : Party) (a : TransactionState) (tree tree' : Worktree) : Prop :=
  tree'.node [stateFile] = tree.node [stateFile] ∨ ∃ b, Durable tree' b ∧ Swapped epoch p a b

theorem wp_persistState_swapped {state : TransactionState} {owner : Text} {generation : Nat}
    (hdurable : Durable s.tree a) (hepoch : state.ownerEpoch = epoch)
    (howner : p.isSettled = true → owner = epoch) :
    wp (persistState host state (some (owner, generation)))
      (fun next s' => Durable s'.tree next ∧ Swapped epoch p a next)
      (fun _ s' => s'.state = s.state ∧ Written epoch p a s.tree s'.tree) s := by
  simp only [persistState, requireExpected, requireOwner, bind_assoc]
  refine wp_observe (fun read faults hread => ?_) fun _ _ => ⟨rfl, .inl rfl⟩
  obtain rfl : a = read := Except.ok.inj (hdurable.readState.symm.trans hread)
  refine wp_stopIf (fun _ => ?_) fun _ => ⟨rfl, .inl rfl⟩
  refine wp_stopIf (fun hexpected => ?_) fun _ => ⟨rfl, .inl rfl⟩
  refine wp_stopIf (fun _ => ?_) fun _ => ⟨rfl, .inl rfl⟩
  simp only [not_or, not_not] at hexpected
  obtain ⟨-, rfl, rfl⟩ := hexpected
  have hswapped : Swapped epoch p a (stamped host state (a.generation + 1)) := ⟨howner, hepoch, rfl⟩
  rw [wp_bind]
  refine wp_writeState (fun s' _ _ _ hnew => ⟨hnew, hswapped⟩) fun stop s' hstate _ hrewritten => ?_
  exact ⟨hstate, hrewritten.state.imp id fun hnew => ⟨_, hnew, hswapped⟩⟩

/-- A handle has its own epoch. -/
def Party.Own (epoch : Text) (p : Party) : Prop := ∀ state, p = .handle state → state.ownerEpoch = epoch

theorem wp_write (hdurable : Durable s.tree a) (hown : p.Own epoch) (hstate : s.state = p.edited edit) :
    wp (p.write host epoch) (fun _ s' => Durable s'.tree s'.state ∧ Swapped epoch p a s'.state)
      (fun _ s' => s'.state = s.state ∧ Written epoch p a s.tree s'.tree) s := by
  cases p with
  | handle state =>
    obtain rfl := hown state rfl
    have howner : s.state.ownerEpoch = state.ownerEpoch := by
      rw [hstate]
      rfl
    show wp (persist host) _ _ _
    refine wp_getState (wp_stateFileExists ?_)
    rw [hdurable.isSome, if_neg (by simp), wp_bind]
    exact wp_mono (wp_persistState_swapped hdurable howner fun _ => howner) (fun _ _ _ h => h)
      fun _ _ _ h => h
  | recovering read =>
    rw [Party.write, wp_bind]
    exact wp_mono (wp_persistState_swapped hdurable rfl (by simp [Party.isSettled])) (fun _ _ _ h => h)
      fun _ _ _ h => h
  | unborn | closed => exact ⟨rfl, .inl rfl⟩

/-! ### Runs -/

variable (host) (epochs)

/-- The state on the disk before and after a move: it is the same and no write succeeded, or a party has
replaced it. -/
def Turn (m : Machine) (move : Move) (a b : TransactionState) : Prop :=
  (b = a ∧ ∀ i edit nonce faults, move = .write i edit nonce faults →
      (m.stepResult host epochs move).1 ≠ .ok ⟨⟩) ∨
    ∃ i edit nonce faults, move = .write i edit nonce faults ∧ Swapped (epochs i) (m.party i) a b

/-- A state is on the disk, and each handle has its own epoch. -/
structure Machine.Fenced (m : Machine) (a : TransactionState) : Prop where
  durable : Durable m.tree a
  own : ∀ i, (m.party i).Own (epochs i)

variable {host} {epochs}

theorem Machine.Fenced.next (h : m.Fenced epochs a) (host : Host) (move : Move) :
    ∃ b, (m.step host epochs move).Fenced epochs b ∧ Turn host epochs m move a b ∧
      ∀ i, (m.party i).isSettled = true → ((m.step host epochs move).party i).isSettled = true := by
  have hown : ∀ {i q}, q.Own (epochs i) → ∀ j, (Function.update m.party i q j).Own (epochs j) := fun hq =>
    (Function.forall_update_iff m.party fun j q => q.Own (epochs j)).2 ⟨hq, fun j _ => h.own j⟩
  have hsettles : ∀ {i q}, ((m.party i).isSettled = true → q.isSettled = true) →
      ∀ j, (m.party j).isSettled = true → (Function.update m.party i q j).isSettled = true := fun hq =>
    (Function.forall_update_iff m.party fun j q => (m.party j).isSettled = true → q.isSettled = true).2
      ⟨hq, fun _ _ hj => hj⟩
  cases move with
  | other change keeps =>
    exact ⟨a, ⟨h.durable.of_node (keeps m.tree), h.own⟩, .inl ⟨rfl, nofun⟩, fun _ hi => hi⟩
  | load i =>
    cases hp : m.party i with
    | unborn =>
      simp only [step, stepResult, hp, h.durable.readState]
      refine ⟨a, ⟨h.durable, hown nofun⟩, .inl ⟨rfl, nofun⟩, hsettles ?_⟩
      rw [hp]
      exact nofun
    | _ =>
      simp only [step, stepResult, hp]
      exact ⟨a, h, .inl ⟨rfl, nofun⟩, fun _ hi => hi⟩
  | write i edit nonce faults =>
    have hwrite : wp ((m.party i).write host (epochs i)) _ _
        ⟨m.tree, [], nonce, faults, (m.party i).edited edit⟩ := wp_write h.durable (h.own i) rfl
    simp only [step, stepResult, Turn]
    cases hexec : exec ((m.party i).write host (epochs i))
        ⟨m.tree, [], nonce, faults, (m.party i).edited edit⟩ with
    | mk result s =>
      cases result with
      | ok _ =>
        obtain ⟨hnew, hswapped⟩ := wp_ok hwrite hexec
        refine ⟨_, ⟨hnew, hown ?_⟩, .inr ⟨i, edit, nonce, faults, rfl, hswapped⟩, hsettles fun _ => rfl⟩
        rintro _ ⟨⟩
        exact hswapped.epoch
      | error stop =>
        obtain ⟨hstate, hwritten⟩ := wp_error hwrite hexec
        -- Whoever has written is a handle or closed.
        obtain ⟨hafter, hsettled⟩ : ((m.party i).after (.error stop) s.state).Own (epochs i) ∧
            ((m.party i).after (.error stop) s.state).isSettled = true := by
          cases hp : m.party i with
          | handle state =>
            cases stop with
            | crash => exact ⟨nofun, rfl⟩
            | error message =>
              refine ⟨?_, rfl⟩
              rintro _ ⟨⟩
              rw [hstate, hp]
              exact h.own i state hp
          | _ => cases stop <;> exact ⟨nofun, rfl⟩
        rcases hwritten with hsame | ⟨b, hb, hswapped⟩
        · exact ⟨a, ⟨h.durable.of_node hsame, hown hafter⟩, .inl ⟨rfl, by simp⟩, hsettles fun _ => hsettled⟩
        · exact ⟨b, ⟨hb, hown hafter⟩, .inr ⟨i, edit, nonce, faults, rfl, hswapped⟩,
            hsettles fun _ => hsettled⟩

/-- A handle that is not the owner never becomes it again. -/
theorem Machine.Fenced.run (h : m.Fenced epochs a) (host : Host) (hinj : Function.Injective epochs)
    (moves : List Move) :
    ∃ b, (m.run host epochs moves).Fenced epochs b ∧ ∀ i, (m.party i).isSettled = true →
      a.ownerEpoch ≠ epochs i →
      ((m.run host epochs moves).party i).isSettled = true ∧ b.ownerEpoch ≠ epochs i := by
  induction moves generalizing m a with
  | nil => exact ⟨a, h, fun _ hi hne => ⟨hi, hne⟩⟩
  | cons move moves ih =>
    obtain ⟨b, hb, hturn, hsettled⟩ := h.next host move
    obtain ⟨c, hc, hlost⟩ := ih hb
    refine ⟨c, hc, fun i hi hne => hlost i (hsettled i hi) ?_⟩
    rcases hturn with ⟨rfl, -⟩ | ⟨j, _, _, _, -, hswapped⟩
    · exact hne
    · intro heq
      obtain rfl : j = i := hinj (hswapped.epoch.symm.trans heq)
      exact hne (hswapped.owner hi)

variable (host) (epochs)

/-- A `recover` succeeds while there is another handle. -/
def Machine.TakesOver (m : Machine) (move : Move) (i : Nat) : Prop :=
  (m.stepResult host epochs move).1 = .ok ⟨⟩ ∧ (∃ state, m.party i = .handle state) ∧
    ∃ j edit nonce faults read, move = .write j edit nonce faults ∧ m.party j = .recovering read

/-- A machine with the handle of `create_for_task` and no other. -/
def Machine.New (m : Machine) : Prop :=
  ∃ base policy start state, Created host base policy start ∧ start.handle = some state ∧
    state.ownerEpoch = epochs 0 ∧ m = .ofSystem start

variable {host} {epochs}

theorem Machine.New.fenced (h : m.New host epochs) : ∃ a, m.Fenced epochs a := by
  obtain ⟨base, policy, start, state, hcreated, hhandle, hepoch, rfl⟩ := h
  obtain ⟨state', hhandle', hdurable⟩ := hcreated.good.2
  obtain rfl : state = state' := Option.some.inj (hhandle.symm.trans hhandle')
  refine ⟨state, hdurable, fun i => ?_⟩
  cases i with
  | zero =>
    intro state' hstate'
    simp only [ofSystem, hhandle] at hstate'
    cases hstate'
    exact hepoch
  | succ i => exact nofun

/-- If epochs never repeat, then in every run of a new transaction each move leaves the state on the disk
or replaces it by one of the next generation, which a handle does only as the owner; and a write of a
handle that was taken over fails and leaves the state. -/
theorem run_fenced (hinj : Function.Injective epochs) (hnew : m.New host epochs) (moves : List Move)
    (move : Move) : ∃ a b, Durable (m.run host epochs moves).tree a ∧
      Durable ((m.run host epochs moves).step host epochs move).tree b ∧
      Turn host epochs (m.run host epochs moves) move a b ∧
      ∀ earlier takeover later i edit nonce faults, moves = earlier ++ takeover :: later →
        (m.run host epochs earlier).TakesOver host epochs takeover i →
        move = .write i edit nonce faults →
        b = a ∧ ((m.run host epochs moves).stepResult host epochs move).1 ≠ .ok ⟨⟩ := by
  obtain ⟨start, hstart⟩ := hnew.fenced
  obtain ⟨a, ha, -⟩ := hstart.run host hinj moves
  obtain ⟨b, hb, hturn, -⟩ := ha.next host move
  refine ⟨a, b, ha.durable, hb.durable, hturn, ?_⟩
  intro earlier takeover later i edit nonce faults hmoves htakeover hmove
  obtain ⟨hok, ⟨state, hi⟩, j, edit', nonce', faults', read, rfl, hj⟩ := htakeover
  obtain ⟨c, hc, -⟩ := hstart.run host hinj earlier
  obtain ⟨d, hd, hturn', hsettled⟩ := hc.next host (.write j edit' nonce' faults')
  have hne : d.ownerEpoch ≠ epochs i := by
    rcases hturn' with ⟨-, hnot⟩ | ⟨k, _, _, _, heq, hswapped⟩
    · exact absurd hok (hnot _ _ _ _ rfl)
    · cases heq
      rw [hswapped.epoch]
      intro heq
      rw [hinj heq, hi] at hj
      cases hj
  obtain ⟨e, he, hlost⟩ := hd.run host hinj later
  obtain ⟨hi', hne'⟩ := hlost i (hsettled i (by rw [hi]; rfl)) hne
  have hrun : m.run host epochs moves =
      ((m.run host epochs earlier).step host epochs (.write j edit' nonce' faults')).run host epochs
        later := by
    rw [hmoves, Machine.run, foldl_append]
    rfl
  rw [← hrun] at he hi'
  obtain rfl := he.durable.unique ha.durable
  rcases hturn with ⟨rfl, hnot⟩ | ⟨k, _, _, _, heq, hswapped⟩
  · exact ⟨rfl, hnot _ _ _ _ hmove⟩
  · cases hmove.symm.trans heq
    exact absurd (hswapped.owner hi') hne'

/-- Epochs that never repeat. -/
def unaryEpoch (n : Nat) : Text := replicate (n + 1) 'e'

def moveMachine : Machine := .ofSystem moveStart

/-- A second handle takes the transaction over, and the first one writes. -/
def takeover : List Move := [.load 1, .write 1 id 1 []]

theorem run_fenced_takeover : ∃ a, Durable (moveMachine.run plainHost unaryEpoch takeover).tree a ∧
      Durable ((moveMachine.run plainHost unaryEpoch takeover).step plainHost unaryEpoch
        (.write 0 id 2 [])).tree a := by
  have hinj : Function.Injective unaryEpoch := fun n k h => by simpa [unaryEpoch] using congrArg length h
  have hnew : moveMachine.New plainHost unaryEpoch := ⟨_, _, _, _, moveStart_created, rfl, rfl, rfl⟩
  obtain ⟨a, b, ha, hb, -, hlost⟩ := run_fenced hinj hnew takeover (.write 0 id 2 [])
  obtain ⟨rfl, -⟩ := hlost [.load 1] (.write 1 id 1 []) [] 0 id 2 [] rfl
    ⟨rfl, ⟨_, rfl⟩, 1, id, 1, [], _, rfl, rfl⟩ rfl
  exact ⟨b, ha, hb⟩

end Axiomc.Workspace
