import Xv6.BioTransparent

/-! When `bget` finds no buffer. The admission rule of `begin_op` lets the log pin `NBUF`
blocks, and `write_log` then needs buffers of its own. -/
namespace Xv6.Bio

end Xv6.Bio
