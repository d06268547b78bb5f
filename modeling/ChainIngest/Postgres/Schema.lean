/-!
# The schema

The script that creates the tables, views and indexes of an empty database.
Databases remember the digest of the script they were made by, so every character
of it counts.
-/

namespace ChainIngest.Postgres.Schema

def script : String := "-- Normalized chain data.
--
-- Storage is append-only: a reorg flips `canonical` on the replaced blocks
-- and their import entries, nothing is deleted. Aggregations join on
-- canonical blocks.
--
-- Wei amounts are NUMERIC(78, 0) (fits any 256-bit word); addresses and
-- hashes are raw BYTEA.

-- =============================================================================
-- Blocks
-- =============================================================================

CREATE TABLE blocks (
    hash              BYTEA PRIMARY KEY,
    number            BIGINT NOT NULL,
    parent_hash       BYTEA NOT NULL,
    timestamp         TIMESTAMPTZ NOT NULL,
    miner             BYTEA NOT NULL,
    gas_used          BIGINT NOT NULL,
    gas_limit         BIGINT NOT NULL,
    base_fee_per_gas  NUMERIC(78, 0),
    canonical         BOOLEAN NOT NULL DEFAULT TRUE,
    indexed_at        TIMESTAMPTZ NOT NULL DEFAULT NOW()
);

-- At most one canonical block per height
CREATE UNIQUE INDEX idx_blocks_canonical_number ON blocks (number) WHERE canonical;
CREATE INDEX idx_blocks_number ON blocks (number);

CREATE TABLE ommers (
    block_hash  BYTEA NOT NULL REFERENCES blocks (hash) ON DELETE CASCADE,
    position    INTEGER NOT NULL,
    hash        BYTEA NOT NULL,
    number      BIGINT NOT NULL,
    miner       BYTEA NOT NULL,
    PRIMARY KEY (block_hash, position)
);

-- =============================================================================
-- Accounts
-- =============================================================================

CREATE TABLE accounts (
    address           BYTEA PRIMARY KEY,
    first_seen_block  BIGINT NOT NULL,
    destroyed_block   BIGINT
);

-- =============================================================================
-- Transactions & Receipts
-- =============================================================================

CREATE TABLE transactions (
    hash          BYTEA PRIMARY KEY,
    block_hash    BYTEA NOT NULL REFERENCES blocks (hash) ON DELETE CASCADE,
    block_number  BIGINT NOT NULL,
    index         INTEGER NOT NULL,
    sender        BYTEA NOT NULL,
    recipient     BYTEA,
    value         NUMERIC(78, 0) NOT NULL,
    nonce         BIGINT NOT NULL,
    gas_price     NUMERIC(78, 0) NOT NULL,
    gas_limit     BIGINT NOT NULL,
    input         BYTEA NOT NULL,
    v             BIGINT NOT NULL,
    r             NUMERIC(78, 0) NOT NULL,
    s             NUMERIC(78, 0) NOT NULL
);

CREATE INDEX idx_transactions_block ON transactions (block_hash, index);
CREATE INDEX idx_transactions_sender ON transactions (sender);
CREATE INDEX idx_transactions_recipient ON transactions (recipient) WHERE recipient IS NOT NULL;

CREATE TABLE transaction_receipts (
    transaction_hash     BYTEA PRIMARY KEY REFERENCES transactions (hash) ON DELETE CASCADE,
    success              BOOLEAN NOT NULL,
    gas_used             BIGINT NOT NULL,
    cumulative_gas_used  BIGINT NOT NULL,
    effective_gas_price  NUMERIC(78, 0),
    contract_address     BYTEA,
    revert_reason        TEXT
);

-- =============================================================================
-- Trace Products
-- =============================================================================

CREATE TABLE internal_transactions (
    transaction_hash  BYTEA NOT NULL REFERENCES transactions (hash) ON DELETE CASCADE,
    pc                INTEGER NOT NULL,
    sender            BYTEA NOT NULL,
    recipient         BYTEA NOT NULL,
    amount            NUMERIC(78, 0) NOT NULL,
    PRIMARY KEY (transaction_hash, pc)
);

CREATE INDEX idx_internal_transactions_sender ON internal_transactions (sender);
CREATE INDEX idx_internal_transactions_recipient ON internal_transactions (recipient);

-- Created contracts and contracts classified after the fact (no creation row)
CREATE TABLE contracts (
    address           BYTEA PRIMARY KEY,
    block_number      BIGINT NOT NULL,
    transaction_hash  BYTEA,
    pc                INTEGER,
    creator           BYTEA,
    endowment         NUMERIC(78, 0),
    code              BYTEA,
    code_hash         BYTEA NOT NULL,
    capabilities      INTEGER NOT NULL,
    contract_type     TEXT NOT NULL
        CHECK (contract_type IN ('erc1155', 'erc777', 'erc721', 'erc20', 'generic'))
);

CREATE INDEX idx_contracts_type ON contracts (contract_type);

CREATE TABLE contract_destructions (
    transaction_hash  BYTEA NOT NULL REFERENCES transactions (hash) ON DELETE CASCADE,
    pc                INTEGER NOT NULL,
    address           BYTEA NOT NULL,
    refund_address    BYTEA NOT NULL,
    refund_amount     NUMERIC(78, 0) NOT NULL,
    PRIMARY KEY (transaction_hash, pc)
);

-- Binary archive of each block's trace products
CREATE TABLE block_traces (
    block_hash  BYTEA PRIMARY KEY REFERENCES blocks (hash) ON DELETE CASCADE,
    archive     BYTEA NOT NULL
);

-- =============================================================================
-- Tokens
-- =============================================================================

CREATE TABLE token_transfers (
    transaction_hash  BYTEA NOT NULL REFERENCES transactions (hash) ON DELETE CASCADE,
    log_index         INTEGER NOT NULL,
    contract          BYTEA NOT NULL,
    sender            BYTEA NOT NULL,
    recipient         BYTEA NOT NULL,
    amount            NUMERIC(78, 0),
    token_id          NUMERIC(78, 0),
    PRIMARY KEY (transaction_hash, log_index),
    CHECK ((amount IS NULL) <> (token_id IS NULL))
);

CREATE INDEX idx_token_transfers_contract ON token_transfers (contract);
CREATE INDEX idx_token_transfers_sender ON token_transfers (sender);
CREATE INDEX idx_token_transfers_recipient ON token_transfers (recipient);

CREATE TABLE contract_events (
    transaction_hash  BYTEA NOT NULL REFERENCES transactions (hash) ON DELETE CASCADE,
    log_index         INTEGER NOT NULL,
    contract          BYTEA NOT NULL,
    topics            BYTEA[] NOT NULL,
    data              BYTEA NOT NULL,
    decoded           JSONB,
    PRIMARY KEY (transaction_hash, log_index)
);

CREATE INDEX idx_contract_events_contract ON contract_events (contract);

-- =============================================================================
-- Rewards & Balances
-- =============================================================================

CREATE TABLE rewards (
    block_hash   BYTEA NOT NULL REFERENCES blocks (hash) ON DELETE CASCADE,
    hash         BYTEA NOT NULL,
    beneficiary  BYTEA NOT NULL,
    amount       NUMERIC(78, 0) NOT NULL,
    kind         TEXT NOT NULL CHECK (kind IN ('block', 'ommer')),
    PRIMARY KEY (block_hash, hash)
);

CREATE TABLE balance_deltas (
    block_hash        BYTEA NOT NULL REFERENCES blocks (hash) ON DELETE CASCADE,
    index             INTEGER NOT NULL,
    block_number      BIGINT NOT NULL,
    account           BYTEA NOT NULL,
    amount            NUMERIC(78, 0) NOT NULL,
    reason            TEXT NOT NULL,
    transaction_hash  BYTEA,
    PRIMARY KEY (block_hash, index)
);

CREATE INDEX idx_balance_deltas_account ON balance_deltas (account, block_number);

CREATE VIEW canonical_balances AS
SELECT d.account, SUM(d.amount) AS balance
FROM balance_deltas d
JOIN blocks b ON b.hash = d.block_hash
WHERE b.canonical
GROUP BY d.account;

-- =============================================================================
-- Import Progress
-- =============================================================================

CREATE TABLE import_queue (
    number      BIGINT NOT NULL,
    hash        BYTEA NOT NULL,
    status      TEXT NOT NULL
        CHECK (status IN ('pending', 'in_progress', 'committed', 'failed')),
    attempts    INTEGER NOT NULL DEFAULT 0,
    canonical   BOOLEAN NOT NULL DEFAULT TRUE,
    last_error  TEXT,
    updated_at  TIMESTAMPTZ NOT NULL DEFAULT NOW(),
    PRIMARY KEY (number, hash)
);

-- At most one active entry per canonical height
CREATE UNIQUE INDEX idx_import_queue_active ON import_queue (number)
    WHERE canonical AND status IN ('in_progress', 'committed');

CREATE TABLE indexer_cursor (
    chain_id    BIGINT PRIMARY KEY,
    last_block  BIGINT NOT NULL,
    last_hash   BYTEA NOT NULL,
    updated_at  TIMESTAMPTZ NOT NULL DEFAULT NOW()
);
"

end ChainIngest.Postgres.Schema
