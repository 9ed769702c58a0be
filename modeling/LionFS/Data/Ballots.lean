import Mathlib.Data.Finset.Card

/-!
# Elections of growing logs

The history of a cluster that elects at most one leader a term, each of which
extends a log of its own and has the others copy it. `Safe` is what holds
throughout: what a majority may still confirm of a leader's log, every later leader
holds. The moves of the cluster only ever continue the history (`Grows`).
-/
namespace LionFS
open List Nat Finset
open Function (update)

/-- More than half of the members below a size have a property. -/
def Majority (size : Nat) (holds : Nat → Prop) : Prop :=
  ∃ members : Finset Nat, members ⊆ range size ∧ size < 2 * members.card ∧
    ∀ member ∈ members, holds member

/-- A larger set has a majority too. -/
theorem Majority.mono {size : Nat} {first second : Nat → Prop} (majority : Majority size first)
    (implies : ∀ member, first member → second member) : Majority size second := by
  obtain ⟨members, mem, many, all⟩ := majority
  exact ⟨members, mem, many, fun member isIn => implies member (all member isIn)⟩

/-- Two majorities have a common member. -/
theorem Majority.meet {size : Nat} {first second : Nat → Prop} (one : Majority size first)
    (two : Majority size second) : ∃ member, first member ∧ second member := by
  obtain ⟨members, mem, many, all⟩ := one
  obtain ⟨others, within, most, every⟩ := two
  have crowded : (Finset.range size).card < members.card + others.card := by
    rw [card_range]
    omega
  obtain ⟨member, both⟩ := inter_nonempty_of_card_lt_card_add_card mem within crowded
  rw [mem_inter] at both
  exact ⟨member, all member both.1, every member both.2⟩

/-- A list has the entries of its beginning. -/
theorem getElem?_of_initial {α : Type} {start list : List α} {spot : Nat} {entry : α}
    (begins : start <+: list) (found : start[spot]? = some entry) : list[spot]? = some entry := by
  obtain ⟨rest, rfl⟩ := begins
  rw [List.getElem?_append_left (List.getElem?_eq_some_iff.mp found).1, found]

/-- Beginnings no longer than a common beginning are the same. -/
theorem take_of_initial {α : Type} {start list : List α} {count : Nat} (begins : start <+: list)
    (short : count ≤ start.length) : list.take count = start.take count := by
  obtain ⟨rest, rfl⟩ := begins
  exact take_append_of_le_length short

/-- What every member knows of terms, votes and logs, over the whole history. -/
structure Ballots (α : Type) where
  /-- Term a member is in. -/
  current : Nat → Nat
  /-- Log a member holds. -/
  log : Nat → List α
  /-- Whom a member voted for in a term. -/
  vote : Nat → Nat → Option Nat
  /-- Log with which a member stood in a term. -/
  standing : Nat → Nat → List α
  /-- Member that won a term. -/
  leader : Nat → Option Nat
  /-- Log of the leader of a term, as far as it got. -/
  record : Nat → List α
  /-- How much of the leader's log a member has confirmed in a term. -/
  acked : Nat → Nat → Nat

variable {β : Type} {member place : Nat}
namespace Ballots
variable {α : Type} (term : α → Nat) (size : Nat) (ballots : Ballots α)

/-- A function of a member and a term, changed at one place. -/
def set {β : Type} (table : Nat → Nat → β) (member place : Nat) (value : β) : Nat → Nat → β :=
  fun other at' => if other = member ∧ at' = place then value else table other at'

@[simp] theorem set_self (table : Nat → Nat → β) (member place : Nat) (value : β) :
    set table member place value member place = value := by simp [set]

theorem set_of_ne {table : Nat → Nat → β} {other at' : Nat} {value : β}
    (differs : other ≠ member ∨ at' ≠ place) :
    set table member place value other at' = table other at' := by
  unfold set
  rw [if_neg]
  rintro ⟨same, here⟩
  cases differs with
  | inl apart => exact apart same
  | inr apart => exact apart here

/-- A place is another one if its term differs. -/
theorem set_apart {table : Nat → Nat → β} {other at' : Nat} {value : β}
    (apart : other = member → at' ≠ place) :
    set table member place value other at' = table other at' :=
  set_of_ne (not_and_or.mp fun both => apart both.1 both.2)

/-- The leader of a term wrote the entry at a position of its log itself. -/
def Own (place position : Nat) : Prop :=
  ∃ entry, (ballots.record place)[position]? = some entry ∧ term entry = place

/-- A majority has confirmed the leader's log up to a position. -/
def Chosen (place position : Nat) : Prop :=
  Majority size fun member => position < ballots.acked member place

/-- A majority has confirmed the leader's log up to a position or still may. -/
def Choosable (place position : Nat) : Prop :=
  Majority size fun member =>
    position < ballots.acked member place ∨ ballots.current member ≤ place

/-- Every beginning of a list is one of the log of the leader that wrote its last entry. -/
structure Recorded (list : List α) : Prop where
  sorted : list.Pairwise fun first second => term first ≤ term second
  led : ∀ (position : Nat) entry, list[position]? = some entry →
    (ballots.leader (term entry)).isSome
  /-- Up to an entry the list is its leader's log. -/
  taken : ∀ (position : Nat) entry, list[position]? = some entry →
    list.take (position + 1) = (ballots.record (term entry)).take (position + 1)

/-- Term of the last entry. -/
def lastTerm (list : List α) : Nat := (list.getLast?.map term).getD 0

/-- A log is no older than another. -/
def UpToDate (list other : List α) : Prop :=
  lastTerm term other < lastTerm term list ∨
    lastTerm term list = lastTerm term other ∧ other.length ≤ list.length

/-- What holds throughout the history. -/
structure Safe : Prop where
  majority : ∀ {place winner}, ballots.leader place = some winner →
    Majority size fun member => ballots.vote member place = some winner
  /-- Nobody votes, or is voted for, in a later term than its own. -/
  voted : ∀ {member place candidate}, ballots.vote member place = some candidate →
    place ≤ ballots.current member ∧ place ≤ ballots.current candidate
  begun : ∀ {member place candidate}, ballots.vote member place = some candidate → 0 < place
  unled : ∀ {place}, ballots.leader place = none → ballots.record place = []
  /-- A leader in office holds the log of its term and has confirmed all of it. -/
  office : ∀ {winner}, ballots.leader (ballots.current winner) = some winner →
    ballots.log winner = ballots.record (ballots.current winner) ∧
      ballots.acked winner (ballots.current winner) = (ballots.log winner).length
  /-- Logs of members consist of what leaders wrote. -/
  logs : ∀ member, ballots.Recorded term (ballots.log member)
  records : ∀ place, ballots.Recorded term (ballots.record place)
  stands : ∀ candidate place, ballots.Recorded term (ballots.standing candidate place)
  /-- A member holds no entry of a later term than its own. -/
  bounded : ∀ {member entry}, entry ∈ ballots.log member → term entry ≤ ballots.current member
  /-- A leader's log has no entry of a later term. -/
  capped : ∀ {place entry}, entry ∈ ballots.record place → term entry ≤ place
  within : ∀ member place, ballots.acked member place ≤ (ballots.record place).length
  /-- Members confirm in terms they have reached. -/
  reached : ∀ {member place}, 0 < ballots.acked member place → place ≤ ballots.current member
  /-- What a member has confirmed and may be chosen, it still holds. -/
  held : ∀ {member place position}, ballots.Own term place position →
    position < ballots.acked member place → ballots.Choosable size place position →
    (ballots.record place).take (position + 1) <+: ballots.log member
  kept : ∀ {place later winner position}, place < later → ballots.leader later = some winner →
    ballots.Own term place position → ballots.Choosable size place position →
    (ballots.record place).take (position + 1) <+: ballots.record later
  /-- What a voter had confirmed and may be chosen, its candidate held. -/
  stood : ∀ {member place later candidate position},
    ballots.vote member later = some candidate → place < later →
    ballots.Own term place position → position < ballots.acked member place →
    ballots.Choosable size place position →
    (ballots.record place).take (position + 1) <+: ballots.standing candidate later

/-- One history continues another. -/
structure Grows (next : Ballots α) : Prop where
  current : ∀ member, ballots.current member ≤ next.current member
  vote : ∀ {member place candidate}, ballots.vote member place = some candidate →
    next.vote member place = some candidate
  standing : ∀ {candidate place}, place ≤ ballots.current candidate →
    next.standing candidate place = ballots.standing candidate place
  leader : ∀ {place winner}, ballots.leader place = some winner →
    next.leader place = some winner
  record : ∀ place, ballots.record place <+: next.record place
  acked : ∀ member place, ballots.acked member place ≤ next.acked member place
  /-- Members confirm nothing in terms they have left. -/
  frozen : ∀ {member place}, ballots.acked member place < next.acked member place →
    ballots.current member ≤ place

variable {term size ballots}

/-- A history continues itself. -/
theorem Grows.refl : ballots.Grows ballots where
  current _ := le_refl _
  vote same := same
  standing _ := rfl
  leader same := same
  record _ := prefix_refl _
  acked _ _ := le_refl _
  frozen less := absurd less (lt_irrefl _)

/-- Continuing is transitive. -/
theorem Grows.trans {next last : Ballots α} (first : ballots.Grows next)
    (second : next.Grows last) : ballots.Grows last where
  current member := (first.current member).trans (second.current member)
  vote same := second.vote (first.vote same)
  standing past := by
    rw [second.standing (past.trans (first.current _)), first.standing past]
  leader same := second.leader (first.leader same)
  record place := (first.record place).trans (second.record place)
  acked member place := (first.acked member place).trans (second.acked member place)
  frozen := by
    intro member place more
    by_cases here : ballots.acked member place < next.acked member place
    · exact first.frozen here
    · exact (first.current member).trans (second.frozen (by omega))

variable {spot : Nat}

/-- What is chosen may be chosen. -/
theorem Chosen.choosable (chosen : ballots.Chosen size place spot) :
    ballots.Choosable size place spot :=
  chosen.mono fun _ confirmed => Or.inl confirmed

/-- A leader's own entry is in its log. -/
theorem Own.lt (own : ballots.Own term place spot) : spot < (ballots.record place).length := by
  obtain ⟨entry, found, -⟩ := own
  exact (List.getElem?_eq_some_iff.mp found).1

section
variable {next : Ballots α} (grows : ballots.Grows next)
include grows

/-- What may be chosen later may be chosen now. -/
theorem Grows.choosable (later : next.Choosable size place spot) :
    ballots.Choosable size place spot := by
  refine later.mono fun member either => ?_
  have steady := grows.current member
  by_cases more : ballots.acked member place < next.acked member place
  · exact Or.inr (grows.frozen more)
  · cases either with
    | inl confirmed => exact Or.inl (by omega)
    | inr early => exact Or.inr (steady.trans early)

/-- What is chosen stays chosen. -/
theorem Grows.chosen (now : ballots.Chosen size place spot) : next.Chosen size place spot :=
  now.mono fun member confirmed => lt_of_lt_of_le confirmed (grows.acked member place)

/-- Entries of a leader's log stay where they are. -/
theorem Grows.own (own : ballots.Own term place spot) : next.Own term place spot := by
  obtain ⟨entry, found, mine⟩ := own
  exact ⟨entry, getElem?_of_initial (grows.record place) found, mine⟩

/-- An entry that was there before is one of the leader's. -/
theorem Grows.own_of_lt (own : next.Own term place spot)
    (there : spot < (ballots.record place).length) : ballots.Own term place spot := by
  obtain ⟨entry, found, mine⟩ := own
  have same := getElem?_of_initial (grows.record place) (getElem?_eq_getElem there)
  rw [same] at found
  exact ⟨entry, by rw [getElem?_eq_getElem there, found], mine⟩

/-- A leader's log does not change where it was. -/
theorem Grows.take_record {count : Nat} (there : count ≤ (ballots.record place).length) :
    (next.record place).take count = (ballots.record place).take count :=
  take_of_initial (grows.record place) there

end

variable {list : List α}

/-- What leaders wrote they wrote for ever. -/
theorem Recorded.grows {next : Ballots α} (grows : ballots.Grows next) {list : List α}
    (recorded : ballots.Recorded term list) : next.Recorded term list where
  sorted := recorded.sorted
  led spot entry found := by
    obtain ⟨winner, won⟩ := Option.isSome_iff_exists.mp (recorded.led spot entry found)
    rw [grows.leader won]
    rfl
  taken spot entry found := by
    have there : spot < list.length := (List.getElem?_eq_some_iff.mp found).1
    have same := recorded.taken spot entry found
    have long : spot + 1 ≤ (ballots.record (term entry)).length := by
      have lengths := congrArg length same
      rw [length_take, length_take] at lengths
      omega
    rw [same, grows.take_record long]

/-- A beginning of a list of leaders' entries is one. -/
theorem Recorded.of_initial {start : List α} (recorded : ballots.Recorded term list)
    (begins : start <+: list) : ballots.Recorded term start where
  sorted := recorded.sorted.sublist begins.sublist
  led spot entry found := recorded.led spot entry (getElem?_of_initial begins found)
  taken spot entry found := by
    have there : spot < start.length := (List.getElem?_eq_some_iff.mp found).1
    rw [← recorded.taken spot entry (getElem?_of_initial begins found),
      take_of_initial begins there]

variable {entry : α}

/-- Entries of one term at one position have the same past. -/
theorem Recorded.take_eq {other : List α} (one : ballots.Recorded term list)
    (two : ballots.Recorded term other) {held : α} (here : list[spot]? = some entry)
    (there : other[spot]? = some held) (same : term entry = term held) :
    list.take (spot + 1) = other.take (spot + 1) := by
  rw [one.taken spot entry here, two.taken spot held there, same]

/-- The last term is that of the last entry. -/
theorem lastTerm_eq (last : list[list.length - 1]? = some entry) :
    lastTerm term list = term entry := by
  rw [lastTerm, getLast?_eq_getElem?, last]
  rfl

/-- No entry is of a later term than the last. -/
theorem Recorded.le_lastTerm (recorded : ballots.Recorded term list)
    (found : list[spot]? = some entry) :
    term entry ≤ lastTerm term list := by
  obtain ⟨there, here⟩ := List.getElem?_eq_some_iff.mp found
  have short : list.length - 1 < list.length := by omega
  rw [lastTerm_eq (getElem?_eq_getElem short), ← here]
  by_cases ends : spot = list.length - 1
  · simp only [ends, le_refl]
  · exact pairwise_iff_getElem.mp recorded.sorted spot (list.length - 1) there short (by omega)

/-- A list of leaders' entries begins the log of the leader that wrote its last one. -/
theorem Recorded.prefix_record (recorded : ballots.Recorded term list) :
    list <+: ballots.record (lastTerm term list) := by
  by_cases empty : list.length = 0
  · rw [eq_nil_of_length_eq_zero empty]
    exact nil_prefix
  · have short : list.length - 1 < list.length := by omega
    have last := getElem?_eq_getElem short
    have ends : lastTerm term list = term list[list.length - 1] := lastTerm_eq last
    have whole := recorded.taken _ _ last
    rw [← ends, take_of_length_le (by omega),
      Nat.sub_add_cancel (Nat.pos_of_ne_zero empty)] at whole
    exact prefix_iff_eq_take.mpr whole

/-- A log no older than one that begins with what may be chosen begins with it as well. -/
theorem Safe.carries (safe : ballots.Safe term size) {other : List α}
    (recorded : ballots.Recorded term list) (holder : ballots.Recorded term other)
    (own : ballots.Own term place spot) (open' : ballots.Choosable size place spot)
    (begins : (ballots.record place).take (spot + 1) <+: other)
    (upToDate : UpToDate term list other) : (ballots.record place).take (spot + 1) <+: list := by
  have mem := own.lt
  obtain ⟨entry, found, mine⟩ := own
  have held : other[spot]? = some entry := by
    refine getElem?_of_initial begins ?_
    rw [getElem?_take_of_lt (lt_succ_self _), found]
  have reaches : spot < other.length := (List.getElem?_eq_some_iff.mp held).1
  have old := holder.le_lastTerm held
  have nonempty : 0 < list.length := by
    by_contra empty
    have none : list = [] := eq_nil_of_length_eq_zero (by omega)
    subst none
    cases upToDate with
    | inl later => simp [lastTerm] at later
    | inr level => simp only [length_nil] at level; omega
  have short : list.length - 1 < list.length := by omega
  have last := getElem?_eq_getElem short
  have ends : lastTerm term list = term list[list.length - 1] := lastTerm_eq last
  have fits := recorded.prefix_record
  by_cases level : lastTerm term list = place
  · have longer : spot + 1 ≤ list.length := by
      cases upToDate with
      | inl later => omega
      | inr same => omega
    rw [level] at fits
    refine prefix_of_prefix_length_le (List.take_prefix _ _) fits ?_
    rw [length_take]
    omega
  · have later : place < lastTerm term list := by
      cases upToDate with
      | inl above => omega
      | inr same => omega
    obtain ⟨winner, won⟩ := Option.isSome_iff_exists.mp (recorded.led _ _ last)
    rw [← ends] at won
    have carried := safe.kept later won ⟨entry, found, mine⟩ open'
    refine prefix_of_prefix_length_le carried fits ?_
    rw [length_take]
    by_contra less
    have above : (ballots.record (lastTerm term list))[spot]? = some entry := by
      refine getElem?_of_initial carried ?_
      rw [getElem?_take_of_lt (lt_succ_self _), found]
    have there := getElem?_of_initial fits last
    obtain ⟨far, atFar⟩ := List.getElem?_eq_some_iff.mp above
    obtain ⟨near, atNear⟩ := List.getElem?_eq_some_iff.mp there
    have order := pairwise_iff_getElem.mp (safe.records (lastTerm term list)).sorted
      (list.length - 1) spot near far (by omega)
    rw [atFar, atNear, ← ends] at order
    omega

variable (ballots)

/-- A member moves on to a later term. -/
def adopt (member place : Nat) : Ballots α :=
  { ballots with current := update ballots.current member place }

/-- A member stands in the next term and votes for itself. -/
def stand (member : Nat) : Ballots α :=
  let place := ballots.current member + 1
  { ballots with
    current := update ballots.current member place
    vote := set ballots.vote member place (some member)
    standing := set ballots.standing member place (ballots.log member) }

/-- A member votes in its term. -/
def grant (member candidate : Nat) : Ballots α :=
  { ballots with vote := set ballots.vote member (ballots.current member) (some candidate) }

/-- A member wins its term. -/
def win (winner : Nat) : Ballots α :=
  let place := ballots.current winner
  { ballots with
    leader := update ballots.leader place (some winner)
    record := update ballots.record place (ballots.log winner)
    acked := set ballots.acked winner place (ballots.log winner).length }

/-- A leader writes an entry. -/
def extend (winner : Nat) (entry : α) : Ballots α :=
  let place := ballots.current winner
  let longer := ballots.log winner ++ [entry]
  { ballots with
    log := update ballots.log winner longer
    record := update ballots.record place longer
    acked := set ballots.acked winner place longer.length }

/-- A member replaces its log and confirms a part of it. -/
def accept (member : Nat) (list : List α) (count : Nat) : Ballots α :=
  let place := ballots.current member
  { ballots with
    log := update ballots.log member list
    acked := set ballots.acked member place (max (ballots.acked member place) count) }

variable {ballots}

/-- Going to a later term continues the history. -/
theorem grows_adopt (later : ballots.current member ≤ place) :
    ballots.Grows (ballots.adopt member place) :=
  { (Grows.refl : ballots.Grows ballots) with
    current := fun other => by
      by_cases same : other = member
      · subst same
        simpa [adopt] using later
      · simp [adopt, same] }

/-- Standing continues the history. -/
theorem grows_stand (safe : ballots.Safe term size) (member : Nat) :
    ballots.Grows (ballots.stand member) :=
  { (Grows.refl : ballots.Grows ballots) with
    current := fun other => by
      by_cases same : other = member
      · subst same
        simp [stand]
      · simp [stand, same]
    vote := fun same => by
      have past := (safe.voted same).1
      refine (set_apart ?_).trans same
      rintro rfl
      omega
    standing := fun past => by
      refine set_apart ?_
      rintro rfl
      omega }

/-- So does a vote that was free. -/
theorem grows_grant {cand : Nat} (free : ballots.vote member (ballots.current member) = none ∨
      ballots.vote member (ballots.current member) = some cand) :
    ballots.Grows (ballots.grant member cand) :=
  { (Grows.refl : ballots.Grows ballots) with
    vote := fun {other place chosen} same => by
      by_cases here : other = member ∧ place = ballots.current member
      · obtain ⟨rfl, rfl⟩ := here
        rw [same] at free
        simpa [grant, eq_comm] using free
      · exact (set_of_ne (not_and_or.mp here)).trans same }

/-- A member changes, in its term, the leader and its log, and what the member holds of it and
has confirmed. -/
def turn (ballots : Ballots α) (member leads : Nat) (record log : List α) (acked : Nat) :
    Ballots α :=
  let place := ballots.current member
  { ballots with
    log := update ballots.log member log
    leader := update ballots.leader place (some leads)
    record := update ballots.record place record
    acked := set ballots.acked member place acked }

/-- So does a turn to a longer log. -/
theorem grows_turn {leads acked : Nat} {record log : List α}
    (same : ∀ winner, ballots.leader (ballots.current member) = some winner → leads = winner)
    (begins : ballots.record (ballots.current member) <+: record)
    (confirms : ballots.acked member (ballots.current member) ≤ acked) :
    ballots.Grows (ballots.turn member leads record log acked) where
  current _ := le_refl _
  vote same := same
  standing _ := rfl
  leader {place winner} won := by
    by_cases here : place = ballots.current member
    · subst here
      simp [turn, same winner won]
    · simpa [turn, here] using won
  record place := by
    by_cases here : place = ballots.current member
    · subst here
      simpa [turn] using begins
    · simp [turn, here]
  acked other place := by
    by_cases here : other = member ∧ place = ballots.current member
    · obtain ⟨rfl, rfl⟩ := here
      simpa [turn] using confirms
    · exact (set_of_ne (not_and_or.mp here)).ge
  frozen less := by
    by_contra past
    refine absurd less (not_lt.mpr (set_apart ?_).le)
    rintro rfl
    omega

/-- Winning as a change of log, leader and record. -/
theorem win_eq (winner : Nat) : ballots.win winner =
    ballots.turn winner winner (ballots.log winner) (ballots.log winner)
      (ballots.log winner).length := by
  simp [win, turn]

variable {winner : Nat}

/-- Winning a vacant term continues the history. -/
theorem grows_win (safe : ballots.Safe term size)
    (vacant : ballots.leader (ballots.current winner) = none) :
    ballots.Grows (ballots.win winner) := by
  have within := safe.within winner (ballots.current winner)
  rw [safe.unled vacant] at within
  rw [win_eq]
  refine grows_turn (fun other won => ?_) ?_ (within.trans (zero_le _))
  · rw [vacant] at won
    cases won
  · rw [safe.unled vacant]
    exact nil_prefix

/-- Extending as a change of log and record. -/
theorem extend_eq (leads : ballots.leader (ballots.current winner) = some winner) (entry : α) :
    ballots.extend winner entry =
      ballots.turn winner winner (ballots.log winner ++ [entry]) (ballots.log winner ++ [entry])
        (ballots.log winner ++ [entry]).length := by
  simp [extend, turn, ← leads]

/-- A longer log of a leader continues the history. -/
theorem grows_extend (safe : ballots.Safe term size)
    (leads : ballots.leader (ballots.current winner) = some winner) :
    ballots.Grows (ballots.extend winner entry) := by
  obtain ⟨record, acked⟩ := safe.office leads
  rw [extend_eq leads]
  refine grows_turn (fun other won => Option.some.inj (leads.symm.trans won)) ?_ ?_
  · rw [← record]
    exact prefix_append _ _
  · simp [acked]

/-- Accepting as a change of log. -/
theorem accept_eq {leads : Nat} (won : ballots.leader (ballots.current member) = some leads)
    (list : List α) (count : Nat) : ballots.accept member list count =
      ballots.turn member leads (ballots.record (ballots.current member)) list
        (max (ballots.acked member (ballots.current member)) count) := by
  simp [accept, turn, ← won]

/-- Accepting continues the history. -/
theorem grows_accept {leads count : Nat}
    (won : ballots.leader (ballots.current member) = some leads) :
    ballots.Grows (ballots.accept member list count) := by
  rw [accept_eq won]
  exact grows_turn (fun other led => Option.some.inj (won.symm.trans led)) (prefix_refl _)
    (Nat.le_max_left _ _)

end Ballots
end LionFS
